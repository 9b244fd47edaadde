import BaizeBoard.Library.A64
import BaizeBoard.Libc.Memset

/-!
# `memset` in A64 assembly

`aarch64/memset.S` line by line.  The function stores bytes up to a 64-bit
boundary, blocks of 64 bytes, and then what the lowest six bits of the count ask
for, one bit at a time from the highest.
-/

namespace BaizeBoard.MemsetA64

open A64 Asm LittleEndian

inductive Label where
  | unaligned
  | aligned
  | x1Zero
  | write64
  | less64
  | less32
  | less16
  | less8
  | less4
  | less2
  | exit
  deriving DecidableEq

def memset : Code Label :=
  [.op (.cbz .x2 .exit),
    .op (.mov .x3 (.reg .x0)),
    .op (tst .x0 (.imm 7)),
    .op (.b .eq .aligned),
    .label .unaligned,
    .op (.str 1 .x1 .x3 (.post 1)),
    .op (.subs .x2 .x2 (.imm 1)),
    .op (.b .eq .exit),
    .op (tst .x3 (.imm 7)),
    .op (.b .ne .unaligned),
    .label .aligned,
    .op (.cbz .x1 .x1Zero),
    .op (.bfiW .x1 .x1 8 8),
    .op (.bfiW .x1 .x1 16 16),
    .op (.bfi .x1 .x1 32 32),
    .label .x1Zero,
    .op (.ands .x4 .x2 (.imm (~~~0x3f))),
    .op (.b .eq .less64),
    .label .write64] ++
  List.replicate 4 (.op (.stp .x1 .x1 .x3 (.post 16))) ++
  [.op (.subs .x4 .x4 (.imm 64)),
    .op (.b .ne .write64),
    .label .less64,
    .op (.tbz .x2 5 .less32),
    .op (.stp .x1 .x1 .x3 (.post 16)),
    .op (.stp .x1 .x1 .x3 (.post 16)),
    .label .less32,
    .op (.tbz .x2 4 .less16),
    .op (.stp .x1 .x1 .x3 (.post 16)),
    .label .less16,
    .op (.tbz .x2 3 .less8),
    .op (.str 8 .x1 .x3 (.post 8)),
    .label .less8,
    .op (.tbz .x2 2 .less4),
    .op (.str 4 .x1 .x3 (.post 4)),
    .label .less4,
    .op (.tbz .x2 1 .less2),
    .op (.str 2 .x1 .x3 (.post 2)),
    .label .less2,
    .op (.tbz .x2 0 .exit),
    .op (.str 1 .x1 .x3 (.offset 0)),
    .label .exit,
    .op .ret]

/-! ## Storing -/

/-- The registers that the function uses up. -/
def scratch : List Reg := [.x1, .x2, .x3, .x4]

/-- In a call from the state `s`, `k` bytes `c` have been stored. -/
structure Filled (s : State) (c : UInt8) (k : ℕ) (t : State) : Prop where
  mem : t.mem = s.mem.fill (s.get .x0).toNat k c
  keep : ∀ r ∉ scratch, t.get r = s.get r

/-- The next store is behind them. -/
structure Filling (s : State) (c : UInt8) (k : ℕ) (t : State) : Prop extends Filled s c k t where
  ptr : t.get .x3 = BitVec.ofNat 64 ((s.get .x0).toNat + k)

def Returned (s : State) (c : UInt8) (n : ℕ) (target : BitVec 64) (t : State) : Prop :=
  target = s.get .x30 ∧ Filled s c n t

variable {s t : State} {c : UInt8} {n k j : ℕ} {code : Code Label} {Q : BitVec 64 → State → Prop}

theorem Filled.set {r : Reg} (h : Filled s c k t) (hr : r ∈ scratch) (v : BitVec 64) :
    Filled s c k (t.set r v) := by
  refine ⟨(State.mem_set t v).trans h.mem, fun r' hr' ↦ ?_⟩
  have hne : r' ≠ r := by
    rintro rfl
    exact hr' hr
  rw [State.get_set_of_ne t v hne, h.keep r' hr']

theorem Filled.flags (h : Filled s c k t) (f : Arm.Flags) :
    Filled s c k (t.setFlags f) :=
  ⟨h.mem, fun r hr ↦ (State.get_setFlags t f).trans (h.keep r hr)⟩

theorem Filling.set {r : Reg} (h : Filling s c k t) (hr : r ∈ [Reg.x1, .x2, .x4])
    (v : BitVec 64) : Filling s c k (t.set r v) := by
  refine ⟨h.toFilled.set ?_ v, ?_⟩
  · simp only [List.mem_cons, List.not_mem_nil, or_false] at hr
    rcases hr with rfl | rfl | rfl <;> decide
  · rw [State.get_set_of_ne _ _ fun heq ↦ absurd (heq ▸ hr) (by decide), h.ptr]

theorem Filling.flags (h : Filling s c k t) (f : Arm.Flags) :
    Filling s c k (t.setFlags f) :=
  ⟨h.toFilled.flags f, (State.get_setFlags t f).trans h.ptr⟩

theorem Filling.address (h : Filling s c k t) (hj : 0 < j)
    (hmapped : s.mem.Mapped (s.get .x0).toNat (k + j)) :
    (t.get .x3).toNat = (s.get .x0).toNat + k := by
  rw [h.ptr, BitVec.toNat_ofNat, Nat.mod_eq_of_lt (hmapped.lt (by omega))]

theorem Filling.storeWord (h : Filling s c k t) (hword : Begins j c (t.get .x1))
    (halign : j ∣ (s.get .x0).toNat + k)
    (hmapped : s.mem.Mapped (s.get .x0).toNat (k + j)) :
    t.mem.storeWord ((s.get .x0).toNat + k) j (t.get .x1).toNat =
      some (s.mem.fill (s.get .x0).toNat (k + j) c) := by
  rw [h.mem]
  exact Ram.storeWord_fill hword halign hmapped

theorem Filling.next (h : Filling s c k t) (j : ℕ) :
    Filling s c (k + j) ((t.setMem (s.mem.fill (s.get .x0).toNat (k + j) c)).set .x3
      (t.get .x3 + BitVec.ofNat 64 j)) := by
  refine ⟨⟨by simp, fun r hr ↦ ?_⟩, ?_⟩
  · rw [State.get_set_of_ne _ _ fun heq ↦ absurd (heq ▸ hr) (by decide), State.get_setMem,
      h.keep r hr]
  · rw [State.get_set_self _ _ (by decide), h.ptr, ← BitVec.ofNat_add, Nat.add_assoc]

theorem Filling.str (h : Filling s c k t) (hj : 0 < j) {imm : BitVec 64}
    (himm : imm = BitVec.ofNat 64 j) (hword : Begins j c (t.get .x1))
    (halign : j ∣ (s.get .x0).toNat + k)
    (hmapped : s.mem.Mapped (s.get .x0).toNat (k + j))
    (hnext : ∀ t', Filling s c (k + j) t' → (∀ r ≠ .x3, t'.get r = t.get r) →
      Ends exec memset code t' Q) :
    Ends exec memset (.op (.str j .x1 .x3 (.post imm)) :: code) t Q := by
  have hexec : exec (L := Label) (.str j .x1 .x3 (.post imm)) t =
      some ((t.setMem (s.mem.fill (s.get .x0).toNat (k + j) c)).set .x3
        (t.get .x3 + BitVec.ofNat 64 j), .fall) := by
    simp only [exec, State.address, h.address hj hmapped, h.storeWord hword halign hmapped, himm,
      State.writeBack, State.get_setMem, Option.bind_eq_bind, Option.bind_some]
    rfl
  refine (hnext _ (h.next j) fun r hr ↦ ?_).fall hexec
  rw [State.get_set_of_ne _ _ hr, State.get_setMem]

theorem Filling.stp (h : Filling s c k t) (hword : Begins 8 c (t.get .x1))
    (halign : 8 ∣ (s.get .x0).toNat + k)
    (hmapped : s.mem.Mapped (s.get .x0).toNat (k + 16))
    (hnext : ∀ t', Filling s c (k + 16) t' → (∀ r ≠ .x3, t'.get r = t.get r) →
      Ends exec memset code t' Q) :
    Ends exec memset (.op (.stp .x1 .x1 .x3 (.post 16)) :: code) t Q := by
  have haddress : (t.get .x3 + 8).toNat = (s.get .x0).toNat + (k + 8) := by
    rw [h.ptr, show (8 : BitVec 64) = BitVec.ofNat 64 8 from rfl, ← BitVec.ofNat_add,
      BitVec.toNat_ofNat, Nat.add_assoc, Nat.mod_eq_of_lt (hmapped.lt (by omega))]
  have hfirst := h.storeWord hword halign (hmapped.mono (by omega))
  have hsecond := Ram.storeWord_fill (m := s.mem) (n := k + 8) hword (by omega)
    (hmapped.mono (by omega))
  have hexec : exec (L := Label) (.stp .x1 .x1 .x3 (.post 16)) t =
      some ((t.setMem (s.mem.fill (s.get .x0).toNat (k + 16) c)).set .x3
        (t.get .x3 + BitVec.ofNat 64 16), .fall) := by
    simp only [exec, State.address, h.address (by decide) hmapped, haddress, hfirst, hsecond,
      State.writeBack, State.get_setMem, Option.bind_eq_bind, Option.bind_some]
    rfl
  refine (hnext _ (h.next 16) fun r hr ↦ ?_).fall hexec
  rw [State.get_set_of_ne _ _ hr, State.get_setMem]

/-! ## The bits of the count -/

/-- At the label behind which the lowest `i` bits of the count are left to do. -/
structure Left (s : State) (c : UInt8) (n i k : ℕ) (t : State) : Prop
    extends Filling s c k t where
  word : Begins 8 c (t.get .x1)
  count : k + (t.get .x2).toNat % 2 ^ i = n
  aligned : 2 ^ min 3 i ∣ (s.get .x0).toNat + k
  mapped : s.mem.Mapped (s.get .x0).toNat n

variable {i : ℕ}

theorem Left.dvd (h : Left s c n i k t) (hj : j ∣ 2 ^ min 3 i) :
    j ∣ (s.get .x0).toNat + k := hj.trans h.aligned

theorem Left.done (h : Left s c n 0 k t) : k = n := by
  have hcount := h.count
  rwa [pow_zero, Nat.mod_one, Nat.add_zero] at hcount

theorem Left.weaken (h : Left s c n (i + 1) k t) (hk : 2 ^ min 3 i ∣ j)
    (hcount : k + j + (t.get .x2).toNat % 2 ^ i = n) {t' : State}
    (ht' : Filling s c (k + j) t') (hr : ∀ r ≠ .x3, t'.get r = t.get r) :
    Left s c n i (k + j) t' := by
  refine ⟨ht', ?_, ?_, ?_, h.mapped⟩
  · rw [hr _ (by decide)]
    exact h.word
  · rw [hr _ (by decide)]
    exact hcount
  · rw [← Nat.add_assoc]
    exact Nat.dvd_add ((pow_dvd_pow 2 (by omega)).trans h.aligned) hk

/-- A test of bit `i`: where it is set, `2 ^ i` bytes are to be stored next. -/
theorem Left.tbz {l : Label} (h : Left s c n (i + 1) k t)
    (hset : k + 2 ^ i ≤ n → (∀ t', Filling s c (k + 2 ^ i) t' →
      (∀ r ≠ .x3, t'.get r = t.get r) → Left s c n i (k + 2 ^ i) t') →
      Ends exec memset code t Q)
    (hclear : Left s c n i k t → Ends exec memset (behind l memset) t Q) :
    Ends exec memset (.op (.tbz .x2 i l) :: code) t Q := by
  have hcount := h.count
  rw [Nat.mod_pow_succ, ← Nat.toNat_testBit, BitVec.testBit_toNat] at hcount
  apply ends_branch rfl
  · intro hbit
    rw [Bool.not_eq_true'] at hbit
    rw [hbit, Bool.toNat_false, Nat.mul_zero, Nat.add_zero] at hcount
    exact hclear (h.weaken (j := 0) (dvd_zero _) hcount h.toFilling fun r _ ↦ rfl)
  · intro hbit
    rw [Bool.not_eq_false'] at hbit
    rw [hbit, Bool.toNat_true, Nat.mul_one] at hcount
    exact hset (by omega) fun t' ht' hr ↦
      h.weaken (pow_dvd_pow 2 (Nat.min_le_right 3 i)) (by omega) ht' hr

theorem ends_exit (h : Filled s c n t) :
    Ends exec memset (behind .exit memset) t (Returned s c n) :=
  Ends.leave rfl ⟨h.keep _ (by decide), h⟩

theorem ends_less2 (h : Left s c n 1 k t) :
    Ends exec memset (behind .less2 memset) t (Returned s c n) := by
  apply h.tbz
  · intro hle hleft
    have hlast : k + 1 = n :=
      (hleft _ (h.next 1) fun r hr ↦ by rw [State.get_set_of_ne _ _ hr, State.get_setMem]).done
    have haddress : (t.get .x3 + 0).toNat = (s.get .x0).toNat + k := by
      rw [← h.address Nat.one_pos (h.mapped.mono hle)]
      simp
    have hstore := h.storeWord (h.word.mono (by decide)) (Nat.one_dvd _) (h.mapped.mono hle)
    refine Ends.fall (t := t.setMem (s.mem.fill (s.get .x0).toNat (k + 1) c)) ?_ ?_
    · simp only [exec, State.address, haddress, hstore, State.writeBack, Option.bind_eq_bind,
        Option.bind_some]
      rfl
    · apply Ends.label
      apply ends_exit
      exact ⟨by rw [← hlast, State.mem_setMem],
        fun r hr ↦ (State.get_setMem _ _).trans (h.keep r hr)⟩
  · intro h
    exact ends_exit (h.done ▸ h.toFilled)

theorem ends_less4 (h : Left s c n 2 k t) :
    Ends exec memset (behind .less4 memset) t (Returned s c n) := by
  apply h.tbz
  · intro hle hleft
    apply h.str (by decide) rfl (h.word.mono (by decide)) (h.dvd (by decide)) (h.mapped.mono hle)
    intro t' ht' hr
    exact (ends_less2 (hleft t' ht' hr)).label
  · exact ends_less2

theorem ends_less8 (h : Left s c n 3 k t) :
    Ends exec memset (behind .less8 memset) t (Returned s c n) := by
  apply h.tbz
  · intro hle hleft
    apply h.str (by decide) rfl (h.word.mono (by decide)) (h.dvd (by decide)) (h.mapped.mono hle)
    intro t' ht' hr
    exact (ends_less4 (hleft t' ht' hr)).label
  · exact ends_less4

theorem ends_less16 (h : Left s c n 4 k t) :
    Ends exec memset (behind .less16 memset) t (Returned s c n) := by
  apply h.tbz
  · intro hle hleft
    apply h.str (by decide) rfl h.word (h.dvd (by decide)) (h.mapped.mono hle)
    intro t' ht' hr
    exact (ends_less8 (hleft t' ht' hr)).label
  · exact ends_less8

theorem ends_less32 (h : Left s c n 5 k t) :
    Ends exec memset (behind .less32 memset) t (Returned s c n) := by
  apply h.tbz
  · intro hle hleft
    apply h.stp h.word (h.dvd (by decide)) (h.mapped.mono hle)
    intro t' ht' hr
    exact (ends_less16 (hleft t' ht' hr)).label
  · exact ends_less16

/-- Pairs of words: `q` of them in a row. -/
theorem Filling.stps (h : Filling s c k t) (q : ℕ) (hword : Begins 8 c (t.get .x1))
    (halign : 8 ∣ (s.get .x0).toNat + k)
    (hmapped : s.mem.Mapped (s.get .x0).toNat (k + 16 * q))
    (hnext : ∀ t', Filling s c (k + 16 * q) t' → (∀ r ≠ .x3, t'.get r = t.get r) →
      Ends exec memset code t' Q) :
    Ends exec memset
      (List.replicate q (.op (.stp .x1 .x1 .x3 (.post 16))) ++ code) t Q := by
  induction q generalizing k t with
  | zero => exact hnext t h fun r _ ↦ rfl
  | succ q ih =>
      apply h.stp hword halign (hmapped.mono (by omega))
      intro t' ht' hr
      apply ih ht'
      · rwa [hr _ (by decide)]
      · omega
      · rwa [show k + 16 + 16 * q = k + 16 * (q + 1) by omega]
      · intro u hu hru
        rw [show k + 16 + 16 * q = k + 16 * (q + 1) by omega] at hu
        exact hnext u hu fun r hr3 ↦ (hru r hr3).trans (hr r hr3)

theorem ends_less64 (h : Left s c n 6 k t) :
    Ends exec memset (behind .less64 memset) t (Returned s c n) := by
  apply h.tbz
  · intro hle hleft
    apply h.stps 2 h.word (h.dvd (by decide)) (h.mapped.mono hle)
    intro t' ht' hr
    exact (ends_less32 (hleft t' ht' hr)).label
  · exact ends_less32

/-! ## Blocks of 64 bytes -/

/-- With `q` blocks left to do. -/
structure Blocks (s : State) (c : UInt8) (n k q : ℕ) (t : State) : Prop
    extends Filling s c k t where
  word : Begins 8 c (t.get .x1)
  blocks : t.get .x4 = BitVec.ofNat 64 (64 * q)
  few : 64 * q < 2 ^ 64
  count : k + 64 * q + (t.get .x2).toNat % 64 = n
  aligned : 8 ∣ (s.get .x0).toNat + k
  mapped : s.mem.Mapped (s.get .x0).toNat n

variable {q : ℕ}

theorem Blocks.left (h : Blocks s c n k 0 t) : Left s c n 6 k t :=
  ⟨h.toFilling, h.word, h.count, h.aligned, h.mapped⟩

theorem Blocks.step (h : Blocks s c n k (q + 1) t)
    (hnext : ∀ t', Blocks s c n (k + 64) q t' → Ends exec memset
      (if q = 0 then behind .less64 memset else behind .write64 memset) t' Q) :
    Ends exec memset (behind .write64 memset) t Q := by
  have hcount := h.count
  have hfew := h.few
  apply h.stps 4 h.word h.aligned (h.mapped.mono (by omega))
  intro t' ht' hr
  have hblocks : t'.get .x4 = BitVec.ofNat 64 (64 * (q + 1)) :=
    (hr _ (by decide)).trans h.blocks
  have hnext' := hnext ((t'.set .x4 (t'.get .x4 - 64)).setFlags
      (Arm.subFlags (t'.get .x4) 64)) (by
    refine ⟨(ht'.set (by decide) _).flags _, ?_, ?_, by omega, ?_, ?_, h.mapped⟩
    · rw [State.get_setFlags, State.get_set_of_ne _ _ (by decide), hr _ (by decide)]
      exact h.word
    · rw [State.get_setFlags, State.get_set_self _ _ (by decide), hblocks,
        show (64 : BitVec 64) = BitVec.ofNat 64 64 from rfl, Nat.mul_succ, BitVec.ofNat_add,
        BitVec.add_sub_cancel]
    · rw [State.get_setFlags, State.get_set_of_ne _ _ (by decide), hr _ (by decide)]
      omega
    · have haligned := h.aligned
      omega)
  refine Ends.fall rfl (ends_branch rfl ?_ ?_)
  · intro hne
    have hq : q ≠ 0 := by
      rintro rfl
      simp [Arm.Cond.holds, Arm.subFlags, hblocks] at hne
    rwa [if_neg hq] at hnext'
  · intro heq
    have hq : q = 0 := by
      have hz : t'.get .x4 = 64 := by simpa [Arm.Cond.holds, Arm.subFlags] using heq
      have htoNat := congrArg BitVec.toNat (hblocks.symm.trans hz)
      rw [BitVec.toNat_ofNat, Nat.mod_eq_of_lt h.few] at htoNat
      have h64 : (64 : BitVec 64).toNat = 64 := rfl
      omega
    rw [if_pos hq] at hnext'
    exact hnext'.label

theorem ends_write64 (h : Blocks s c n k (q + 1) t) :
    Ends exec memset (behind .write64 memset) t (Returned s c n) := by
  induction q generalizing k t with
  | zero => exact h.step fun t' ht' ↦ ends_less64 ht'.left
  | succ q ih => exact h.step fun t' ht' ↦ ih ht'

/-! ## From the entry on -/

/-- With all of the count left to do, and `w` bytes `c` in the register that is stored. -/
structure Start (s : State) (c : UInt8) (n w k : ℕ) (t : State) : Prop
    extends Filling s c k t where
  word : Begins w c (t.get .x1)
  count : k + (t.get .x2).toNat = n
  mapped : s.mem.Mapped (s.get .x0).toNat n

theorem Start.flags {w : ℕ} (h : Start s c n w k t) (f : Arm.Flags) :
    Start s c n w k (t.setFlags f) := by
  refine ⟨h.toFilling.flags f, ?_, ?_, h.mapped⟩
  · rw [State.get_setFlags]
    exact h.word
  · rw [State.get_setFlags]
    exact h.count

theorem ends_x1Zero (h : Start s c n 8 k t) (halign : 8 ∣ (s.get .x0).toNat + k) :
    Ends exec memset (behind .x1Zero memset) t (Returned s c n) := by
  have hcount := h.count
  have hblocks : t.get .x2 &&& ~~~0x3f =
      BitVec.ofNat 64 (64 * ((t.get .x2).toNat / 64)) := Arm.and_not_eq _ 6
  have hlt := (t.get .x2).isLt
  have hnext : Blocks s c n k ((t.get .x2).toNat / 64)
      ((t.set .x4 (t.get .x2 &&& ~~~0x3f)).setFlags
        ⟨(t.get .x2 &&& ~~~0x3f).msb, t.get .x2 &&& ~~~0x3f == 0, false, false⟩) := by
    refine ⟨(h.set (by decide) _).flags _, ?_, ?_, by omega, ?_, halign, h.mapped⟩
    · rw [State.get_setFlags, State.get_set_of_ne _ _ (by decide)]
      exact h.word
    · rw [State.get_setFlags, State.get_set_self _ _ (by decide), hblocks]
    · rw [State.get_setFlags, State.get_set_of_ne _ _ (by decide)]
      omega
  refine Ends.fall rfl (ends_branch rfl ?_ ?_)
  · intro heq
    have hzero : 64 * ((t.get .x2).toNat / 64) = 0 := by
      have hz : t.get .x2 &&& ~~~0x3f = 0 := eq_of_beq heq
      have htoNat := congrArg BitVec.toNat (hblocks.symm.trans hz)
      rwa [BitVec.toNat_ofNat, Nat.mod_eq_of_lt (by omega)] at htoNat
    rw [show (t.get .x2).toNat / 64 = 0 by omega] at hnext
    exact ends_less64 hnext.left
  · intro hne
    cases hq : (t.get .x2).toNat / 64 with
    | zero =>
        rw [hq] at hblocks
        exact absurd hblocks (ne_of_beq_false hne)
    | succ q =>
        rw [hq] at hnext
        exact (ends_write64 hnext).label

theorem ends_aligned (h : Start s c n 1 k t) (halign : 8 ∣ (s.get .x0).toNat + k) :
    Ends exec memset (behind .aligned memset) t (Returned s c n) := by
  refine ends_branch rfl ?_ ?_
  · intro hz
    have hzero : t.get .x1 = 0#64 := by simpa using hz
    have hword := h.word
    rw [hzero] at hword
    exact ends_x1Zero ⟨h.toFilling, hzero ▸ begins_zero hword, h.count, h.mapped⟩ halign
  · intro _
    refine Ends.fall rfl (Ends.fall rfl (Ends.fall rfl (Ends.label (ends_x1Zero ?_ halign))))
    have h2 := Arm.begins_bfi (h.word.setWidth (v := 32) (by decide)) (by decide)
    have h4 := Arm.begins_bfi ((h2.setWidth (v := 64) (by decide)).setWidth (v := 32) (by decide))
      (by decide)
    have h8 := Arm.begins_bfi (h4.setWidth (v := 64) (by decide)) (by decide)
    refine ⟨((h.set (by decide) _).set (by decide) _).set (by decide) _, ?_, ?_, h.mapped⟩
    · simpa using h8
    · simpa using h.count

/-- A test of the lowest three bits of an address. -/
theorem tst_iff (a : ℕ) : ((BitVec.ofNat 64 a &&& 7) == 0) = true ↔ 8 ∣ a :=
  beq_iff_eq.trans (Arm.ofNat_and_eq_zero a 3 (by decide))

/-- Induct on what is left of the count. -/
theorem ends_unaligned {m : ℕ} (h : Start s c n 1 k t) (hm : (t.get .x2).toNat = m + 1) :
    Ends exec memset (behind .unaligned memset) t (Returned s c n) := by
  have hcount := h.count
  induction m using Nat.strong_induction_on generalizing k t with
  | _ m ih =>
      refine h.str Nat.one_pos rfl h.word (Nat.one_dvd _) (h.mapped.mono (by omega)) ?_
      intro t' ht' hr
      have hx2 : t'.get .x2 = BitVec.ofNat 64 (m + 1) := by
        rw [hr _ (by decide), ← hm, BitVec.ofNat_toNat, BitVec.setWidth_eq]
      have hlt : m + 1 < 2 ^ 64 := hm ▸ (t.get .x2).isLt
      have hleft : t'.get .x2 - 1 = BitVec.ofNat 64 m := by
        rw [hx2, BitVec.ofNat_add]
        exact BitVec.add_sub_cancel _ _
      set u := (t'.set .x2 (t'.get .x2 - 1)).setFlags (Arm.subFlags (t'.get .x2) 1)
        with hu
      have hm' : (u.get .x2).toNat = m := by
        rw [hu, State.get_setFlags, State.get_set_self _ _ (by decide), hleft,
          BitVec.toNat_ofNat, Nat.mod_eq_of_lt (by omega)]
      have hstart : Start s c n 1 (k + 1) u := by
        refine ⟨(ht'.set (by decide) _).flags _, ?_, by omega, h.mapped⟩
        rw [hu, State.get_setFlags, State.get_set_of_ne _ _ (by decide), hr _ (by decide)]
        exact h.word
      have hsub : exec (L := Label) (.subs .x2 .x2 (.imm 1)) t' = some (u, .fall) := rfl
      refine Ends.fall hsub (ends_branch rfl ?_ ?_)
      · intro heq
        have hone : BitVec.ofNat 64 (m + 1) = 1 := hx2.symm.trans (eq_of_beq heq)
        have htoNat := congrArg BitVec.toNat hone
        rw [BitVec.toNat_ofNat, Nat.mod_eq_of_lt hlt] at htoNat
        obtain rfl : m = 0 := Nat.succ.inj htoNat
        rw [show n = k + 1 by omega]
        exact ends_exit hstart.toFilled
      · intro hne
        have hm0 : m ≠ 0 := by
          rintro rfl
          exact ne_of_beq_false hne hx2
        have hptr := hstart.ptr
        have hstart' := hstart.flags
          ⟨(u.get .x3 &&& 7).msb, u.get .x3 &&& 7 == 0, false, false⟩
        refine Ends.fall (exec_tst _ _ _) (ends_branch rfl ?_ ?_)
        · intro _
          refine ih (m - 1) (by omega) hstart' ?_ hstart'.count
          exact ((congrArg BitVec.toNat (State.get_setFlags u _)).trans hm').trans (by omega)
        · intro heven
          refine Ends.label (ends_aligned hstart' ((tst_iff _).mp ?_))
          rw [← hptr]
          simpa [Arm.Cond.holds] using heven

/-- From any state in which the bytes that are to be filled can be stored, the
function returns to its caller. -/
theorem ends_memset (hmapped : s.mem.Mapped (s.get .x0).toNat (s.get .x2).toNat) :
    Ends exec memset memset s
      (Returned s (Ram.lowByte (s.get .x1)) (s.get .x2).toNat) := by
  refine ends_branch rfl ?_ ?_
  · intro hz
    have hzero : s.get .x2 = 0#64 := eq_of_beq hz
    refine ends_exit ⟨?_, fun r _ ↦ rfl⟩
    rw [hzero, BitVec.toNat_zero, Ram.fill_zero]
  · intro hz
    have hpos : 0 < (s.get .x2).toNat := by
      have hne : s.get .x2 ≠ 0#64 := ne_of_beq_false hz
      rw [Nat.pos_iff_ne_zero]
      exact fun hzero ↦ hne (BitVec.eq_of_toNat_eq hzero)
    have hword : Begins 1 (Ram.lowByte (s.get .x1)) (s.get .x1) := begins_one.mpr rfl
    set u := s.set .x3 (s.get .x0) with hu
    have hx0 : u.get .x0 = s.get .x0 := State.get_set_of_ne _ _ (by decide)
    have hx2 : u.get .x2 = s.get .x2 := State.get_set_of_ne _ _ (by decide)
    have hstart : Start s (Ram.lowByte (s.get .x1)) (s.get .x2).toNat 1 0 u := by
      refine ⟨⟨⟨by simp [hu], fun r hr ↦ ?_⟩, by simp [hu]⟩, ?_, by rw [hx2, Nat.zero_add], hmapped⟩
      · exact State.get_set_of_ne _ _ fun heq ↦ absurd (heq ▸ hr) (by decide)
      · rwa [hu, State.get_set_of_ne _ _ (by decide)]
    have hstart' := hstart.flags
      ⟨(u.get .x0 &&& 7).msb, u.get .x0 &&& 7 == 0, false, false⟩
    refine Ends.fall rfl (Ends.fall (exec_tst _ _ _) (ends_branch rfl ?_ ?_))
    · intro heq
      refine ends_aligned hstart' ((tst_iff _).mp ?_)
      rw [Nat.add_zero, BitVec.ofNat_toNat, BitVec.setWidth_eq, ← hx0]
      exact heq
    · intro _
      refine Ends.label (ends_unaligned (m := (s.get .x2).toNat - 1) hstart' ?_)
      exact (congrArg BitVec.toNat ((State.get_setFlags u _).trans hx2)).trans (by omega)

end BaizeBoard.MemsetA64

namespace BaizeBoard

open A64

/-- Called by the procedure call standard, `aarch64/memset.S` returns with the memory
and the pointer that `memset.c` gives, whatever the upper half of `x1` holds; it uses
`x1` to `x4` and the flags only. -/
theorem memsetA64_refines (s : State)
    (h : s.mem.Mapped (s.get .x0).toNat (s.get .x2).toNat) :
    ∃ t, StateTransition.eval (Asm.step exec MemsetA64.memset) (.at MemsetA64.memset s) =
        Part.some (.left (s.get .x30) t) ∧
      memset s.mem (s.get .x0).toNat ((s.get .x1).setWidth 32) (s.get .x2).toNat =
        some (t.mem, (t.get .x0).toNat) ∧
      ∀ r ∉ MemsetA64.scratch, t.get r = s.get r := by
  obtain ⟨target, t, heval, rfl, ht⟩ := MemsetA64.ends_memset h
  refine ⟨t, heval, ?_, ht.keep⟩
  have hbyte : Ram.lowByte ((s.get .x1).setWidth 32) = Ram.lowByte (s.get .x1) := by
    rw [Ram.lowByte, BitVec.setWidth_setWidth_of_le _ (by decide)]
    rfl
  rw [Memset.memset_eq h, hbyte, ht.mem, ht.keep .x0 (by decide)]

/-- 21 bytes from `0x105` on, with garbage above the byte in `x1`. -/
theorem memsetA64_refines_example :
    let s : State := {
      x := fun r ↦ if r = .x0 then 0x105 else if r = .x2 then 21 else 0xffffffff000001ab
      flags := ⟨false, false, false, false⟩
      mem := Ram.image 64 0x100 (List.replicate 32 0) }
    ∃ t, StateTransition.eval (Asm.step exec MemsetA64.memset) (.at MemsetA64.memset s) =
        Part.some (.left (s.get .x30) t) ∧
      memset s.mem (s.get .x0).toNat ((s.get .x1).setWidth 32) (s.get .x2).toNat =
        some (t.mem, (t.get .x0).toNat) ∧
      ∀ r ∉ MemsetA64.scratch, t.get r = s.get r :=
  memsetA64_refines _ (by decide)

end BaizeBoard
