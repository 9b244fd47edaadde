import BaizeBoard.Library.Arm
import BaizeBoard.Library.Asm

/-!
# Some A32 instructions

Every instruction can have a condition.  As in `A64`, an access that is not
aligned has no result.
-/

namespace A32

open Arm

/-- The registers but the program counter. -/
inductive Reg where
  | r0 | r1 | r2 | r3 | r4 | r5 | r6 | r7
  | r8 | r9 | r10 | r11 | r12
  | sp
  | lr
  deriving DecidableEq

@[ext] structure State where
  r : Reg → BitVec 32
  flags : Flags
  mem : Ram 32

namespace State

def set (s : State) (d : Reg) (v : BitVec 32) : State := { s with r := Function.update s.r d v }

def setFlags (s : State) (f : Flags) : State := { s with flags := f }

def setMem (s : State) (m : Ram 32) : State := { s with mem := m }

variable (s : State) {d e : Reg} (v : BitVec 32)

@[simp] theorem r_set_self : (s.set d v).r d = v := by simp [set]

@[simp] theorem r_set_of_ne (h : e ≠ d) : (s.set d v).r e = s.r e := by
  simp [set, h]

@[simp] theorem set_set (v' : BitVec 32) : (s.set d v).set d v' = s.set d v' := by simp [set]

@[simp] theorem mem_set : (s.set d v).mem = s.mem := rfl

@[simp] theorem flags_set : (s.set d v).flags = s.flags := rfl

@[simp] theorem r_setFlags (f : Flags) : (s.setFlags f).r = s.r := rfl

@[simp] theorem mem_setFlags (f : Flags) : (s.setFlags f).mem = s.mem := rfl

@[simp] theorem flags_setFlags (f : Flags) : (s.setFlags f).flags = f := rfl

@[simp] theorem r_setMem (m : Ram 32) : (s.setMem m).r = s.r := rfl

@[simp] theorem mem_setMem (m : Ram 32) : (s.setMem m).mem = m := rfl

@[simp] theorem flags_setMem (m : Ram 32) : (s.setMem m).flags = s.flags := rfl

/-- Stores registers one behind the other. -/
def storeAll (s : State) (m : Ram 32) (a : BitVec 32) : List Reg → Option (Ram 32)
  | [] => some m
  | t :: ts => do
      let m ← m.storeWord a.toNat 4 (s.r t).toNat
      storeAll s m (a + 4) ts

end State

/-- `str k` stores the lowest `k` bytes and adds `post` to the address; `stmia` is
with write back; `popPc d` is `pop {d, pc}`. -/
inductive Op (L : Type) where
  | mov (d n : Reg)
  | tst (n : Reg) (imm : BitVec 32)
  | cmp (n : Reg) (imm : BitVec 32)
  | subs (d n : Reg) (imm : BitVec 32)
  | lsls (d n : Reg) (shift : ℕ)
  | bfi (d n : Reg) (lsb width : ℕ)
  | str (k : ℕ) (t n : Reg) (post : BitVec 32)
  | stmia (n : Reg) (ts : List Reg)
  | push (ts : List Reg)
  | popPc (d : Reg)
  | b (l : L)
  | bx (n : Reg)

variable {L : Type}

def Op.exec (op : Op L) (s : State) : Option (State × Asm.Next L (BitVec 32)) :=
  match op with
  | .mov d n => some (s.set d (s.r n), .fall)
  | .tst n imm =>
      let v := s.r n &&& imm
      some (s.setFlags { s.flags with n := v.msb, z := v == 0 }, .fall)
  | .cmp n imm => some (s.setFlags (subFlags (s.r n) imm), .fall)
  | .subs d n imm => some ((s.set d (s.r n - imm)).setFlags (subFlags (s.r n) imm), .fall)
  | .lsls d n shift =>
      let v := s.r n <<< shift
      some ((s.set d v).setFlags
        ⟨v.msb, v == 0, (s.r n).getLsbD (32 - shift), s.flags.v⟩, .fall)
  | .bfi d n lsb width => some (s.set d (Arm.bfi (s.r d) (s.r n) lsb width), .fall)
  | .str k t n post => do
      let m ← s.mem.storeWord (s.r n).toNat k (s.r t).toNat
      return ((s.setMem m).set n (s.r n + post), .fall)
  | .stmia n ts => do
      let m ← s.storeAll s.mem (s.r n) ts
      return ((s.setMem m).set n (s.r n + BitVec.ofNat 32 (4 * ts.length)), .fall)
  | .push ts => do
      let a := s.r .sp - BitVec.ofNat 32 (4 * ts.length)
      let m ← s.storeAll s.mem a ts
      return ((s.setMem m).set .sp a, .fall)
  | .popPc d => do
      let v ← s.mem.loadWord (s.r .sp).toNat 4
      let pc ← s.mem.loadWord (s.r .sp + 4).toNat 4
      return ((s.set d (BitVec.ofNat 32 v)).set .sp (s.r .sp + 8), .leave (BitVec.ofNat 32 pc))
  | .b l => some (s, .goto l)
  | .bx n => some (s, .leave (s.r n))

structure Instr (L : Type) where
  op : Op L
  cond : Option Cond

def Instr.passes (i : Instr L) (f : Flags) : Bool := i.cond.all (Cond.holds f)

def exec (i : Instr L) (s : State) : Option (State × Asm.Next L (BitVec 32)) :=
  if i.passes s.flags then i.op.exec s else some (s, .fall)

@[simp] theorem exec_none (op : Op L) (s : State) : exec ⟨op, none⟩ s = op.exec s := rfl

/-- The lines of a function. -/
abbrev Code (L : Type) := List (Asm.Line L (Instr L))

/-- A line without a condition. -/
def always (op : Op L) : Asm.Line L (Instr L) := .op ⟨op, none⟩

def when (cond : Cond) (op : Op L) : Asm.Line L (Instr L) := .op ⟨op, some cond⟩

end A32
