import BaizeBoard.Library.Arm
import BaizeBoard.Library.Asm

/-!
# Some A64 instructions

Memory is accessed as with alignment checking: an access that is not aligned to
the size of its elements has no result.
-/

namespace A64

open Arm

inductive Reg where
  | x0 | x1 | x2 | x3 | x4 | x5 | x6 | x7
  | x8 | x9 | x10 | x11 | x12 | x13 | x14 | x15
  | x16 | x17 | x18 | x19 | x20 | x21 | x22 | x23
  | x24 | x25 | x26 | x27 | x28 | x29 | x30
  | xzr
  | sp
  deriving DecidableEq

@[ext] structure State where
  x : Reg → BitVec 64
  flags : Flags
  mem : Ram 64

namespace State

def get (s : State) (r : Reg) : BitVec 64 := if r = .xzr then 0 else s.x r

def set (s : State) (r : Reg) (v : BitVec 64) : State :=
  if r = .xzr then s else { s with x := Function.update s.x r v }

def setFlags (s : State) (f : Flags) : State := { s with flags := f }

def setMem (s : State) (m : Ram 64) : State := { s with mem := m }

variable (s : State) {r r' : Reg} (v : BitVec 64)

@[simp] theorem get_set_self (h : r ≠ .xzr) : (s.set r v).get r = v := by
  rw [set, if_neg h, get, if_neg h]
  exact Function.update_self r v s.x

@[simp] theorem get_set_of_ne (h : r' ≠ r) : (s.set r v).get r' = s.get r' := by
  by_cases hr : r = .xzr
  · rw [set, if_pos hr]
  · have hupdate : Function.update s.x r v r' = s.x r' := Function.update_of_ne h v s.x
    rw [set, if_neg hr]
    simp only [get, hupdate]

@[simp] theorem get_xzr : s.get .xzr = 0 := rfl

@[simp] theorem mem_set : (s.set r v).mem = s.mem := by
  rw [set]
  split <;> rfl

@[simp] theorem flags_set : (s.set r v).flags = s.flags := by
  rw [set]
  split <;> rfl

@[simp] theorem get_setFlags (f : Flags) : (s.setFlags f).get r = s.get r := rfl

@[simp] theorem mem_setFlags (f : Flags) : (s.setFlags f).mem = s.mem := rfl

@[simp] theorem flags_setFlags (f : Flags) : (s.setFlags f).flags = f := rfl

@[simp] theorem get_setMem (m : Ram 64) : (s.setMem m).get r = s.get r := rfl

@[simp] theorem mem_setMem (m : Ram 64) : (s.setMem m).mem = m := rfl

end State

inductive Operand where
  | imm (v : BitVec 64)
  | reg (r : Reg)

inductive Mode where
  | offset (imm : BitVec 64)
  | post (imm : BitVec 64)

/-- `bfiW` is `bfi` on W registers; `str k` stores the lowest `k` bytes of a register. -/
inductive Instr (L : Type) where
  | mov (d : Reg) (op : Operand)
  | ands (d n : Reg) (op : Operand)
  | subs (d n : Reg) (op : Operand)
  | cinc (d n : Reg) (cond : Cond)
  | bfi (d n : Reg) (lsb width : ℕ)
  | bfiW (d n : Reg) (lsb width : ℕ)
  | str (k : ℕ) (t n : Reg) (mode : Mode)
  | stp (t u n : Reg) (mode : Mode)
  | ldp (t u n : Reg) (mode : Mode)
  | b (cond : Cond) (l : L)
  | cbz (t : Reg) (l : L)
  | tbz (t : Reg) (bit : ℕ) (l : L)
  | ret

variable {L : Type}

def tst (n : Reg) (op : Operand) : Instr L := .ands .xzr n op

def cmp (n : Reg) (op : Operand) : Instr L := .subs .xzr n op

namespace State

def value (s : State) : Operand → BitVec 64
  | .imm v => v
  | .reg r => s.get r

@[simp] theorem value_imm (s : State) (v : BitVec 64) : s.value (.imm v) = v := rfl

@[simp] theorem value_reg (s : State) (r : Reg) : s.value (.reg r) = s.get r := rfl

def address (s : State) (n : Reg) : Mode → BitVec 64
  | .offset imm => s.get n + imm
  | .post _ => s.get n

def writeBack (s : State) (n : Reg) : Mode → State
  | .offset _ => s
  | .post imm => s.set n (s.get n + imm)

def branch (s : State) (taken : Bool) (l : L) : Option (State × Asm.Next L (BitVec 64)) :=
  if taken then some (s, .goto l) else some (s, .fall)

end State

def exec (i : Instr L) (s : State) : Option (State × Asm.Next L (BitVec 64)) :=
  match i with
  | .mov d op => some (s.set d (s.value op), .fall)
  | .ands d n op =>
      let v := s.get n &&& s.value op
      some ((s.set d v).setFlags ⟨v.msb, v == 0, false, false⟩, .fall)
  | .subs d n op =>
      let v := s.get n - s.value op
      some ((s.set d v).setFlags (subFlags (s.get n) (s.value op)), .fall)
  | .cinc d n cond =>
      some (s.set d (if cond.holds s.flags then s.get n + 1 else s.get n), .fall)
  | .bfi d n lsb width => some (s.set d (bfi (s.get d) (s.get n) lsb width), .fall)
  | .bfiW d n lsb width =>
      let v := bfi ((s.get d).setWidth 32) ((s.get n).setWidth 32) lsb width
      some (s.set d (v.setWidth 64), .fall)
  | .str k t n mode => do
      let m ← s.mem.storeWord (s.address n mode).toNat k (s.get t).toNat
      return ((s.setMem m).writeBack n mode, .fall)
  | .stp t u n mode => do
      let a := s.address n mode
      let m ← s.mem.storeWord a.toNat 8 (s.get t).toNat
      let m ← m.storeWord (a + 8).toNat 8 (s.get u).toNat
      return ((s.setMem m).writeBack n mode, .fall)
  | .ldp t u n mode => do
      let a := s.address n mode
      let v ← s.mem.loadWord a.toNat 8
      let w ← s.mem.loadWord (a + 8).toNat 8
      return (((s.writeBack n mode).set t (BitVec.ofNat 64 v)).set u (BitVec.ofNat 64 w), .fall)
  | .b cond l => s.branch (cond.holds s.flags) l
  | .cbz t l => s.branch (s.get t == 0) l
  | .tbz t bit l => s.branch (!(s.get t).getLsbD bit) l
  | .ret => some (s, .leave (s.get .x30))

theorem exec_tst (s : State) (n : Reg) (op : Operand) :
    exec (L := L) (tst n op) s = some (s.setFlags
      ⟨(s.get n &&& s.value op).msb, s.get n &&& s.value op == 0, false, false⟩, .fall) := rfl

section Pairs

variable {s : State} {t u n : Reg} {a : ℕ} {vs : List (BitVec 64)} {offset : BitVec 64}

/-- A pair stored behind the words `vs`. -/
theorem exec_stp {m : Ram 64} (hmem : s.mem = m.write a (Ram.words vs))
    (haddress : s.get n + offset = BitVec.ofNat 64 (a + 8 * vs.length)) (halign : 8 ∣ a)
    (hmapped : m.Mapped a (8 * (vs.length + 2))) :
    exec (L := L) (.stp t u n (.offset offset)) s =
      some (s.setMem (m.write a (Ram.words (vs ++ [s.get t, s.get u]))), .fall) := by
  have hfirst : (s.get n + offset).toNat = a + 8 * vs.length := by
    rw [haddress, BitVec.toNat_ofNat, Nat.mod_eq_of_lt (hmapped.lt (by omega))]
  have hsecond : (s.get n + offset + 8).toNat = a + 8 * (vs ++ [s.get t]).length := by
    rw [haddress, show (8 : BitVec 64) = BitVec.ofNat 64 8 from rfl, ← BitVec.ofNat_add,
      BitVec.toNat_ofNat, List.length_append, List.length_singleton]
    rw [Nat.add_assoc, Nat.mod_eq_of_lt (hmapped.lt (by omega)), Nat.mul_succ]
  have hstore : (m.write a (Ram.words vs)).storeWord (a + 8 * vs.length) 8 (s.get t).toNat = _ :=
    Ram.storeWord_words halign (hmapped.mono (by omega)) _
  have hstore' : (m.write a (Ram.words (vs ++ [s.get t]))).storeWord
      (a + 8 * (vs ++ [s.get t]).length) 8 (s.get u).toNat = _ :=
    Ram.storeWord_words halign
      (hmapped.mono (by rw [List.length_append, List.length_singleton])) _
  rw [List.append_assoc, List.singleton_append] at hstore'
  simp only [exec, State.address, hfirst, hsecond, hmem, hstore, hstore', State.writeBack,
    Option.bind_eq_bind, Option.bind_some]
  rfl

/-- A pair loaded from the words `vs`. -/
theorem exec_ldp (h : s.mem.Holds a (Ram.words vs)) (halign : 8 ∣ a) {i : ℕ} {v w : BitVec 64}
    (hv : vs[i]? = some v) (hw : vs[i + 1]? = some w)
    (haddress : s.get n + offset = BitVec.ofNat 64 (a + 8 * i)) :
    exec (L := L) (.ldp t u n (.offset offset)) s = some ((s.set t v).set u w, .fall) := by
  obtain ⟨hi, rfl⟩ := List.getElem?_eq_some_iff.mp hv
  obtain ⟨hi', rfl⟩ := List.getElem?_eq_some_iff.mp hw
  have hmapped := h.mapped
  rw [Ram.length_words] at hmapped
  have hfirst : (s.get n + offset).toNat = a + 8 * i := by
    rw [haddress, BitVec.toNat_ofNat, Nat.mod_eq_of_lt (hmapped.lt (by omega))]
  have hsecond : (s.get n + offset + 8).toNat = a + 8 * (i + 1) := by
    rw [haddress, show (8 : BitVec 64) = BitVec.ofNat 64 8 from rfl, ← BitVec.ofNat_add,
      BitVec.toNat_ofNat, Nat.add_assoc, Nat.mod_eq_of_lt (hmapped.lt (by omega)), Nat.mul_succ]
  simp only [exec, State.address, hfirst, hsecond, Ram.loadWord_words h halign hi,
    Ram.loadWord_words h halign hi', State.writeBack, BitVec.ofNat_toNat, BitVec.setWidth_eq,
    Option.bind_eq_bind, Option.bind_some]
  rfl

end Pairs

/-- The lines of a function. -/
abbrev Code (L : Type) := List (Asm.Line L (Instr L))

section

variable [DecidableEq L] {function code : Code L} {i : Instr L} {s : State}
  {Q : BitVec 64 → State → Prop}

theorem ends_branch {taken : Bool} {l : L} (hi : exec i s = s.branch taken l)
    (hgoto : taken = true → Asm.Ends exec function (Asm.behind l function) s Q)
    (hfall : taken = false → Asm.Ends exec function code s Q) :
    Asm.Ends exec function (.op i :: code) s Q := by
  cases taken with
  | false => exact (hfall rfl).fall hi
  | true => exact (hgoto rfl).goto hi

end

end A64
