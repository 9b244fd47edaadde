import BaizeBoard.Library.A32
import BaizeBoard.Libc.Memset

/-!
# `memset` in A32 assembly

`aarch32/memset.S` line by line.  Counts from 16 on are stored by four registers
at a time, two of which the function saves on the stack; what is left is stored by
conditional instructions, with the bits of the count shifted into the flags.
-/

namespace BaizeBoard.MemsetA32

open A32 Asm LittleEndian

inductive Label where
  | unaligned
  | aligned
  | write32
  | less16
  deriving DecidableEq

def memset : Code Label :=
  [always (.mov .r12 .r0),
    always (.tst .r0 3),
    when .eq (.b .aligned),
    .label .unaligned,
    always (.subs .r2 .r2 1),
    when .hs (.str 1 .r1 .r12 1),
    when .ls (.bx .lr),
    always (.tst .r12 3),
    when .ne (.b .unaligned),
    .label .aligned,
    always (.bfi .r1 .r1 8 8),
    always (.bfi .r1 .r1 16 16),
    always (.mov .r3 .r1),
    always (.cmp .r2 16),
    when .lo (.b .less16),
    always (.push [.r4, .lr]),
    always (.mov .r4 .r1),
    always (.mov .lr .r1),
    .label .write32,
    always (.subs .r2 .r2 32),
    when .hs (.stmia .r12 [.r1, .r3, .r4, .lr]),
    when .hs (.stmia .r12 [.r1, .r3, .r4, .lr]),
    when .hi (.b .write32),
    when .eq (.popPc .r4),
    always (.lsls .r2 .r2 28),
    when .hs (.stmia .r12 [.r1, .r3, .r4, .lr]),
    when .eq (.popPc .r4),
    when .mi (.stmia .r12 [.r1, .r3]),
    always (.lsls .r2 .r2 2),
    when .hs (.str 4 .r1 .r12 4),
    when .eq (.popPc .r4),
    when .mi (.str 2 .r1 .r12 2),
    always (.lsls .r2 .r2 1),
    when .mi (.str 1 .r1 .r12 0),
    always (.popPc .r4),
    .label .less16,
    always (.lsls .r2 .r2 29),
    when .hs (.stmia .r12 [.r1, .r3]),
    when .eq (.bx .lr),
    when .mi (.str 4 .r1 .r12 4),
    always (.lsls .r2 .r2 2),
    when .hs (.str 2 .r1 .r12 2),
    when .mi (.str 1 .r1 .r12 0),
    always (.bx .lr)]

/-! ## Storing -/

/-- Since the state `s`, `k` bytes `c` have been stored, and only the registers
`used` have changed. -/
structure Filled (s : State) (used : List Reg) (c : UInt8) (k : ℕ) (t : State) : Prop where
  mem : t.mem = s.mem.fill (s.r .r0).toNat k c
  keep : ∀ r ∉ used, t.r r = s.r r

/-- The next store is behind them, and the registers `stock` hold nothing but `c`. -/
structure Filling (s : State) (used stock : List Reg) (c : UInt8) (k : ℕ) (t : State) : Prop
    extends Filled s used c k t where
  ptr : t.r .r12 = BitVec.ofNat 32 ((s.r .r0).toNat + k)
  word : ∀ r ∈ stock, Begins 4 c (t.r r)

/-- The state behind a store, when `k` bytes stand. -/
def advance (s : State) (c : UInt8) (k : ℕ) (t : State) : State :=
  (t.setMem (s.mem.fill (s.r .r0).toNat k c)).set .r12 (BitVec.ofNat 32 ((s.r .r0).toNat + k))

variable {s t : State} {used stock : List Reg} {c : UInt8} {n k j : ℕ} {b : Bool}
  {cond : Arm.Cond} {op : Op Label} {code : Code Label} {Q : BitVec 32 → State → Prop}

theorem Filling.advance (h : Filling s used stock c k t) (hused : .r12 ∈ used)
    (hstock : .r12 ∉ stock) (k' : ℕ) : Filling s used stock c k' (advance s c k' t) := by
  have hother : ∀ r ≠ .r12, (MemsetA32.advance s c k' t).r r = t.r r :=
    fun r hr ↦ State.r_set_of_ne _ _ hr
  refine ⟨⟨rfl, fun r hr ↦ ?_⟩, State.r_set_self _ _, fun r hr ↦ ?_⟩
  · rw [hother r (by rintro rfl; exact hr hused), h.keep r hr]
  · rw [hother r (by rintro rfl; exact hstock hr)]
    exact h.word r hr

theorem Filling.storeWord (h : Filling s used stock c k t) (hj : 0 < j)
    (hword : Begins j c (t.r .r1)) (halign : j ∣ (s.r .r0).toNat + k)
    (hmapped : s.mem.Mapped (s.r .r0).toNat (k + j)) :
    t.mem.storeWord (t.r .r12).toNat j (t.r .r1).toNat =
      some (s.mem.fill (s.r .r0).toNat (k + j) c) := by
  rw [h.ptr, BitVec.toNat_ofNat, Nat.mod_eq_of_lt (hmapped.lt (by omega)), h.mem]
  exact Ram.storeWord_fill hword halign hmapped

theorem Filling.exec_str (h : Filling s used stock c k t) (hj : 0 < j) {post : BitVec 32}
    (hpost : post = BitVec.ofNat 32 j) (hword : Begins j c (t.r .r1))
    (halign : j ∣ (s.r .r0).toNat + k) (hmapped : s.mem.Mapped (s.r .r0).toNat (k + j)) :
    (Op.str (L := Label) j .r1 .r12 post).exec t =
      some (MemsetA32.advance s c (k + j) t, .fall) := by
  have hptr : t.r .r12 + post = BitVec.ofNat 32 ((s.r .r0).toNat + (k + j)) := by
    rw [h.ptr, hpost, ← BitVec.ofNat_add, Nat.add_assoc]
  simp only [Op.exec, h.storeWord hj hword halign hmapped, hptr, Option.bind_eq_bind,
    Option.bind_some]
  rfl

theorem storeAll_eq {ts : List Reg} (hword : ∀ r ∈ ts, Begins 4 c (t.r r))
    (halign : 4 ∣ (s.r .r0).toNat + k)
    (hmapped : s.mem.Mapped (s.r .r0).toNat (k + 4 * ts.length)) :
    t.storeAll (s.mem.fill (s.r .r0).toNat k c) (BitVec.ofNat 32 ((s.r .r0).toNat + k)) ts =
      some (s.mem.fill (s.r .r0).toNat (k + 4 * ts.length) c) := by
  induction ts generalizing k with
  | nil => rfl
  | cons r ts ih =>
      rw [List.length_cons] at hmapped ⊢
      have haddress : (BitVec.ofNat 32 ((s.r .r0).toNat + k)).toNat = (s.r .r0).toNat + k := by
        rw [BitVec.toNat_ofNat, Nat.mod_eq_of_lt (hmapped.lt (by omega))]
      have hstore := Ram.storeWord_fill (hword r List.mem_cons_self) halign
        (hmapped.mono (by omega))
      have hrest := ih (k := k + 4) (fun r hr ↦ hword r (List.mem_cons_of_mem _ hr)) (by omega)
        (by rwa [show k + 4 + 4 * ts.length = k + 4 * (ts.length + 1) by omega])
      rw [← Nat.add_assoc, BitVec.ofNat_add, show k + 4 + 4 * ts.length = k + 4 * (ts.length + 1) by
        omega] at hrest
      simp only [State.storeAll, haddress, hstore, Option.bind_eq_bind, Option.bind_some]
      exact hrest

theorem Filling.exec_stmia (h : Filling s used stock c k t) {ts : List Reg}
    (hword : ∀ r ∈ ts, Begins 4 c (t.r r)) (halign : 4 ∣ (s.r .r0).toNat + k)
    (hmapped : s.mem.Mapped (s.r .r0).toNat (k + 4 * ts.length)) :
    (Op.stmia (L := Label) .r12 ts).exec t =
      some (MemsetA32.advance s c (k + 4 * ts.length) t, .fall) := by
  simp only [Op.exec, h.mem, h.ptr, storeAll_eq hword halign hmapped, Option.bind_eq_bind,
    Option.bind_some, ← BitVec.ofNat_add, Nat.add_assoc]
  rfl

/-- A store under a condition. -/
theorem Filling.store (h : Filling s used stock c k t) (hused : .r12 ∈ used) (hstock : .r12 ∉ stock)
    (hcond : cond.holds t.flags = b)
    (hop : b = true → op.exec t = some (MemsetA32.advance s c (k + j) t, .fall))
    (hnext : ∀ t', Filling s used stock c (k + b.toNat * j) t' → t'.r .r2 = t.r .r2 →
      t'.flags = t.flags → Ends exec memset code t' Q) :
    Ends exec memset (when cond op :: code) t Q := by
  cases b with
  | false =>
      rw [Bool.toNat_false, Nat.zero_mul, Nat.add_zero] at hnext
      refine Ends.fall ?_ (hnext t h rfl rfl)
      simp [exec, Instr.passes, hcond]
  | true =>
      rw [Bool.toNat_true, Nat.one_mul] at hnext
      refine Ends.fall ?_ (hnext _ (h.advance hused hstock _) ?_ rfl)
      · simp [exec, Instr.passes, hcond, hop rfl]
      · exact State.r_set_of_ne _ _ (by decide)

theorem Filling.set (h : Filling s used stock c k t) {r : Reg} (hused : r ∈ used) (h12 : r ≠ .r12)
    (hstock : r ∉ stock) (v : BitVec 32) : Filling s used stock c k (t.set r v) := by
  refine ⟨⟨h.mem, fun r' hr' ↦ ?_⟩, ?_, fun r' hr' ↦ ?_⟩
  · rw [State.r_set_of_ne _ _ (by rintro rfl; exact hr' hused), h.keep r' hr']
  · rw [State.r_set_of_ne _ _ h12.symm, h.ptr]
  · rw [State.r_set_of_ne _ _ (by rintro rfl; exact hstock hr')]
    exact h.word r' hr'

theorem Filling.flags (h : Filling s used stock c k t) (f : Arm.Flags) :
    Filling s used stock c k (t.setFlags f) := ⟨⟨h.mem, h.keep⟩, h.ptr, h.word⟩

/-- The count `x` on its way through the flags, `a` bits after the first. -/
theorem Filling.lsls (h : Filling s used stock c k t) (hused : .r2 ∈ used) (hstock : .r2 ∉ stock)
    {x : BitVec 32} {a i : ℕ} (hx : t.r .r2 = x <<< a) (hj : 0 < j) (hi : a + j + i = 31)
    (hnext : ∀ t', Filling s used stock c k t' → t'.r .r2 = x <<< (a + j) →
      Arm.Cond.hs.holds t'.flags = x.getLsbD (i + 1) → Arm.Cond.mi.holds t'.flags = x.getLsbD i →
      (Arm.Cond.eq.holds t'.flags = true ↔ x.toNat % 2 ^ (i + 1) = 0) →
      Ends exec memset code t' Q) :
    Ends exec memset (always (.lsls .r2 .r2 j) :: code) t Q := by
  have hv : t.r .r2 <<< j = x <<< (a + j) := by rw [hx, BitVec.shiftLeft_add]
  refine Ends.fall rfl (hnext _ ((h.set hused (by decide) hstock _).flags _) ?_ ?_ ?_ ?_)
  · rw [State.r_setFlags, State.r_set_self, hv]
  · change (t.r .r2).getLsbD (32 - j) = _
    rw [hx, BitVec.getLsbD_shiftLeft, decide_eq_true (by omega), decide_eq_false (by omega)]
    simp only [Bool.not_false, Bool.true_and]
    congr 1
    omega
  · change (t.r .r2 <<< j).msb = _
    rw [hv, Arm.msb_shiftLeft x (by omega)]
    congr 1
    omega
  · change (t.r .r2 <<< j == 0#32) = true ↔ _
    rw [beq_iff_eq, hv, Arm.shiftLeft_eq_zero x (by omega), show 32 - (a + j) = i + 1 by omega]

/-- The function is left under a condition. -/
theorem ends_leave (hcond : cond.holds t.flags = b)
    (hop : b = true → ∃ u target, op.exec t = some (u, .leave target) ∧ Q target u)
    (hnext : b = false → Ends exec memset code t Q) :
    Ends exec memset (when cond op :: code) t Q := by
  cases b with
  | false =>
      refine Ends.fall ?_ (hnext rfl)
      simp [exec, Instr.passes, hcond]
  | true =>
      obtain ⟨u, target, hexec, hQ⟩ := hop rfl
      refine Ends.leave ?_ hQ
      simp [exec, Instr.passes, hcond, hexec]

/-- The last store does not move the address. -/
theorem Filling.last (h : Filling s used stock c k t) (hcond : cond.holds t.flags = b)
    (hword : Begins 1 c (t.r .r1)) (hmapped : s.mem.Mapped (s.r .r0).toNat (k + b.toNat))
    (hnext : ∀ t', Filled s used c (k + b.toNat) t' → t'.flags = t.flags →
      Ends exec memset code t' Q) :
    Ends exec memset (when cond (.str 1 .r1 .r12 0) :: code) t Q := by
  cases b with
  | false =>
      refine Ends.fall ?_ (hnext t h.toFilled rfl)
      simp [exec, Instr.passes, hcond]
  | true =>
      have hstay : (t.setMem (s.mem.fill (s.r .r0).toNat (k + 1) c)).set .r12 (t.r .r12 + 0) =
          t.setMem (s.mem.fill (s.r .r0).toNat (k + 1) c) := by
        ext1
        · simp [State.set, State.setMem]
        · rfl
        · rfl
      refine Ends.fall ?_
        (hnext (t.setMem (s.mem.fill (s.r .r0).toNat (k + 1) c)) ⟨rfl, h.keep⟩ rfl)
      simp only [exec, Instr.passes, Option.all_some, hcond, if_true, Op.exec,
        h.storeWord Nat.one_pos hword (Nat.one_dvd _) hmapped, Option.bind_eq_bind,
        Option.bind_some, hstay]
      rfl

/-! ## The bits of the count -/

/-- Where bit `i` of `x` is tested, and the bits from `i` on down are still to be stored. -/
theorem Filling.bit (h : Filling s used stock c k t) (hused : .r12 ∈ used) (hstock : .r12 ∉ stock)
    {x : BitVec 32} {i : ℕ} (hcount : k + x.toNat % 2 ^ (i + 1) = n)
    (hcond : cond.holds t.flags = x.getLsbD i)
    (hop : k + 2 ^ i ≤ n → op.exec t = some (MemsetA32.advance s c (k + 2 ^ i) t, .fall))
    (hnext : ∀ t' k', Filling s used stock c k' t' → k' + x.toNat % 2 ^ i = n →
      (∀ d, d ∣ 2 ^ i → d ∣ (s.r .r0).toNat + k → d ∣ (s.r .r0).toNat + k') → t'.r .r2 = t.r .r2 →
      t'.flags = t.flags → Ends exec memset code t' Q) :
    Ends exec memset (when cond op :: code) t Q := by
  rw [Arm.toNat_mod_succ] at hcount
  apply h.store hused hstock hcond
  · intro hset
    rw [hset, Bool.toNat_true, Nat.one_mul] at hcount
    exact hop (by omega)
  · intro t' ht' hr hf
    refine hnext t' _ ht' (by omega) (fun d hd hk ↦ ?_) hr hf
    rw [← Nat.add_assoc]
    exact Nat.dvd_add hk (hd.mul_left _)

section Tail

variable (hmapped : s.mem.Mapped (s.r .r0).toNat n) (h2 : .r2 ∈ used) (h12 : .r12 ∈ used)
include hmapped h2 h12

/-- The last five bits, behind the loop over 32 bytes. -/
theorem ends_tail (h : Filling s used [.r1, .r3, .r4, .lr] c k t) (halign : 4 ∣ (s.r .r0).toNat + k)
    (hcount : k + (t.r .r2).toNat % 2 ^ 5 = n)
    (hret : ∀ t', Filled s used c n t' → ∃ u target,
      (Op.popPc (L := Label) .r4).exec t' = some (u, .leave target) ∧ Q target u) :
    Ends exec memset (memset.drop 24) t Q := by
  have hword : ∀ {u k}, Filling s used [.r1, .r3, .r4, .lr] c k u → Begins 4 c (u.r .r1) :=
    fun hu ↦ hu.word .r1 (by decide)
  have hdone : ∀ {u k}, Filling s used [.r1, .r3, .r4, .lr] c k u → k = n → Filled s used c n u :=
    fun hu hk ↦ hk ▸ hu.toFilled
  apply h.lsls h2 (by decide) (BitVec.shiftLeft_zero _).symm (i := 3) (by decide) rfl
  intro t1 h hx hc hn hz
  apply h.bit h12 (by decide) hcount hc
  · intro hle
    exact h.exec_stmia h.word halign (hmapped.mono hle)
  intro t2 k2 h hcount hdvd hr2 hf2
  have halign := hdvd 4 (by decide) halign
  rw [← hf2] at hn hz
  apply ends_leave rfl
  · intro hzero
    rw [hz.mp hzero] at hcount
    exact hret t2 (hdone h hcount)
  intro _
  apply h.bit h12 (by decide) hcount hn
  · intro hle
    have hsub : ([.r1, .r3] : List Reg) ⊆ [.r1, .r3, .r4, .lr] := by decide
    exact h.exec_stmia (fun r hr ↦ h.word r (hsub hr)) halign (hmapped.mono hle)
  intro t3 k3 h hcount hdvd hr3 hf3
  have halign := hdvd 4 (by decide) halign
  apply h.lsls h2 (by decide) (hr3.trans (hr2.trans hx)) (i := 1) (by decide) rfl
  intro t4 h hx hc hn hz
  apply h.bit h12 (by decide) hcount hc
  · intro hle
    exact h.exec_str (by decide) rfl (hword h) halign (hmapped.mono hle)
  intro t5 k5 h hcount hdvd hr5 hf5
  have halign := hdvd 2 (by decide) ((show 2 ∣ 4 by decide).trans halign)
  rw [← hf5] at hn hz
  apply ends_leave rfl
  · intro hzero
    rw [hz.mp hzero] at hcount
    exact hret t5 (hdone h hcount)
  intro _
  apply h.bit h12 (by decide) hcount hn
  · intro hle
    exact h.exec_str (by decide) rfl ((hword h).mono (by decide)) halign (hmapped.mono hle)
  intro t6 k6 h hcount _ hr6 hf6
  apply h.lsls h2 (by decide) (hr6.trans (hr5.trans hx)) (i := 0) (by decide) rfl
  intro t7 h _ _ hn _
  rw [Arm.toNat_mod_succ, pow_zero, Nat.mod_one, Nat.zero_add, Nat.mul_one] at hcount
  apply h.last hn ((hword h).mono (by decide)) (by rwa [hcount])
  intro t8 h _
  obtain ⟨u, target, hexec, hQ⟩ := hret t8 (hcount ▸ h)
  exact Ends.leave hexec hQ

/-- Counts below 16: their last four bits. -/
theorem ends_less16 (h : Filling s used [.r1, .r3] c k t) (halign : 4 ∣ (s.r .r0).toNat + k)
    (hcount : k + (t.r .r2).toNat % 2 ^ 4 = n)
    (hret : ∀ t', Filled s used c n t' → Q (t'.r .lr) t') :
    Ends exec memset (behind .less16 memset) t Q := by
  have hword : ∀ {u k}, Filling s used [.r1, .r3] c k u → Begins 4 c (u.r .r1) :=
    fun hu ↦ hu.word .r1 (by decide)
  apply h.lsls h2 (by decide) (BitVec.shiftLeft_zero _).symm (i := 2) (by decide) rfl
  intro t1 h hx hc hn hz
  apply h.bit h12 (by decide) hcount hc
  · intro hle
    exact h.exec_stmia h.word halign (hmapped.mono hle)
  intro t2 k2 h hcount hdvd hr2 hf2
  have halign := hdvd 4 (by decide) halign
  rw [← hf2] at hn hz
  apply ends_leave rfl
  · intro hzero
    rw [hz.mp hzero, Nat.add_zero] at hcount
    exact ⟨t2, _, rfl, hret t2 (hcount ▸ h.toFilled)⟩
  intro _
  apply h.bit h12 (by decide) hcount hn
  · intro hle
    exact h.exec_str (by decide) rfl (hword h) halign (hmapped.mono hle)
  intro t3 k3 h hcount hdvd hr3 hf3
  have halign := hdvd 2 (by decide) ((show 2 ∣ 4 by decide).trans halign)
  apply h.lsls h2 (by decide) (hr3.trans (hr2.trans hx)) (i := 0) (by decide) rfl
  intro t4 h _ hc hn _
  apply h.bit h12 (by decide) hcount hc
  · intro hle
    exact h.exec_str (by decide) rfl ((hword h).mono (by decide)) halign (hmapped.mono hle)
  intro t5 k5 h hcount _ _ hf5
  rw [← hf5] at hn
  rw [Arm.toNat_mod_succ, pow_zero, Nat.mod_one, Nat.zero_add, Nat.mul_one] at hcount
  apply h.last hn ((hword h).mono (by decide)) (by rwa [hcount])
  intro t6 h _
  exact Ends.leave rfl (hret t6 (hcount ▸ h))

end Tail

/-! ## Blocks of 32 bytes -/

theorem ends_b {l : Label} (hcond : cond.holds t.flags = b)
    (hgoto : b = true → Ends exec memset (behind l memset) t Q)
    (hfall : b = false → Ends exec memset code t Q) :
    Ends exec memset (when cond (.b l) :: code) t Q := by
  cases b with
  | false =>
      refine Ends.fall ?_ (hfall rfl)
      simp [exec, Instr.passes, hcond]
  | true =>
      refine Ends.goto ?_ (hgoto rfl)
      simp [exec, Instr.passes, hcond, Op.exec]

/-- Both halves of a block, or none. -/
theorem Filling.block (h : Filling s used [.r1, .r3, .r4, .lr] c k t) (h12 : .r12 ∈ used)
    (halign : 4 ∣ (s.r .r0).toNat + k) (hcond : Arm.Cond.hs.holds t.flags = b)
    (hmapped : b = true → s.mem.Mapped (s.r .r0).toNat (k + 32))
    (hnext : ∀ t', Filling s used [.r1, .r3, .r4, .lr] c (k + b.toNat * 32) t' →
      t'.r .r2 = t.r .r2 → t'.flags = t.flags → Ends exec memset code t' Q) :
    Ends exec memset (when .hs (.stmia .r12 [.r1, .r3, .r4, .lr]) ::
      when .hs (.stmia .r12 [.r1, .r3, .r4, .lr]) :: code) t Q := by
  have halign' : 4 ∣ (s.r .r0).toNat + (k + b.toNat * 16) := by omega
  apply h.store h12 (by decide) hcond (j := 16)
  · intro hset
    exact h.exec_stmia h.word halign ((hmapped hset).mono (by simp))
  intro t1 h1 hr1 hf1
  apply h1.store h12 (by decide) (hf1 ▸ hcond) (j := 16)
  · intro hset
    refine h1.exec_stmia h1.word halign' ((hmapped hset).mono ?_)
    simp [hset, Nat.add_assoc]
  intro t2 h2 hr2 hf2
  rw [show k + b.toNat * 16 + b.toNat * 16 = k + b.toNat * 32 by omega] at h2
  exact hnext t2 h2 (hr2.trans hr1) (hf2.trans hf1)

/-- Induct on what is left of the count; behind the last block it may have gone
below zero, which leaves its last five bits as they are. -/
theorem ends_write32 (hmapped : s.mem.Mapped (s.r .r0).toNat n) (h2 : .r2 ∈ used)
    (h12 : .r12 ∈ used) (h : Filling s used [.r1, .r3, .r4, .lr] c k t)
    (halign : 4 ∣ (s.r .r0).toNat + k) (hcount : k + (t.r .r2).toNat = n)
    (hret : ∀ t', Filled s used c n t' → ∃ u target,
      (Op.popPc (L := Label) .r4).exec t' = some (u, .leave target) ∧ Q target u) :
    Ends exec memset (behind .write32 memset) t Q := by
  induction hx : (t.r .r2).toNat using Nat.strong_induction_on generalizing k t with
  | _ x ih =>
      have h32 : (32 : BitVec 32).toNat = 32 := rfl
      obtain ⟨t0, ht0⟩ : ∃ t0, t0 =
          (t.set .r2 (t.r .r2 - 32)).setFlags (Arm.subFlags (t.r .r2) 32) := ⟨_, rfl⟩
      have hr2 : (t0.r .r2).toNat = (2 ^ 32 - 32 + x) % 2 ^ 32 := by
        rw [ht0, State.r_setFlags, State.r_set_self, BitVec.toNat_sub, h32, hx]
      have hhs : Arm.Cond.hs.holds t0.flags = decide (32 ≤ x) := by
        rw [ht0, State.flags_setFlags, Arm.holds_hs, h32, hx]
      have hhi : Arm.Cond.hi.holds t0.flags = decide (32 < x) := by
        rw [ht0, State.flags_setFlags, Arm.holds_hi, h32, hx]
      have heq : Arm.Cond.eq.holds t0.flags = decide (x = 32) := by
        rw [ht0, State.flags_setFlags, Arm.holds_eq, h32, hx]
      have h0 : Filling s used [.r1, .r3, .r4, .lr] c k t0 :=
        ht0 ▸ (h.set h2 (by decide) (by decide) _).flags _
      have hlt : x < 2 ^ 32 := hx ▸ (t.r .r2).isLt
      refine Ends.fall (show exec _ t = some (t0, .fall) by rw [ht0]; rfl) ?_
      apply h0.block h12 halign hhs
      · intro hset
        exact hmapped.mono (by have := of_decide_eq_true hset; omega)
      intro t1 h1 hr1 hf1
      rw [← hr1] at hr2
      rw [← hf1] at hhi heq
      apply ends_b hhi
      · intro hset
        have h32x : 32 < x := of_decide_eq_true hset
        rw [decide_eq_true (show 32 ≤ x by omega), Bool.toNat_true, Nat.one_mul] at h1
        exact ih (x - 32) (by omega) h1 (by omega) (by omega) (by omega)
      intro hclear
      have hx32 : ¬ 32 < x := of_decide_eq_false hclear
      apply ends_leave heq
      · intro hset
        have hxeq : x = 32 := of_decide_eq_true hset
        rw [decide_eq_true (show 32 ≤ x by omega), Bool.toNat_true, Nat.one_mul,
          show k + 32 = n by omega] at h1
        exact hret t1 h1.toFilled
      · intro hset
        have hxne : x ≠ 32 := of_decide_eq_false hset
        rw [decide_eq_false (show ¬ 32 ≤ x by omega), Bool.toNat_false, Nat.zero_mul,
          Nat.add_zero] at h1
        exact ends_tail hmapped h2 h12 h1 halign (by omega) hret

/-! ## The stack -/

/-- Two words below the stack pointer, apart from the `n` bytes to be filled. -/
structure Room (s : State) (n : ℕ) : Prop where
  le : 8 ≤ (s.r .sp).toNat
  aligned : 4 ∣ (s.r .sp).toNat
  mapped : s.mem.Mapped ((s.r .sp).toNat - 8) 8
  apart : (s.r .sp).toNat ≤ (s.r .r0).toNat ∨ (s.r .r0).toNat + n ≤ (s.r .sp).toNat - 8

/-- Below the stack pointer memory may have changed; the other registers are
those that a function need not keep. -/
def Returned (s : State) (c : UInt8) (n : ℕ) (target : BitVec 32) (t : State) : Prop :=
  target = s.r .lr ∧
    (∀ a, a < (s.r .sp).toNat - 8 ∨ (s.r .sp).toNat ≤ a →
      t.mem.load a = (s.mem.fill (s.r .r0).toNat n c).load a) ∧
    ∀ r ∉ [.r1, .r2, .r3, .r12, .lr], t.r r = s.r r

/-- What `push {r4, lr}` puts on the stack. -/
def saved (s : State) : List UInt8 := bytes 4 (s.r .r4).toNat ++ bytes 4 (s.r .lr).toNat

def pushed (s : State) : State :=
  (s.setMem (s.mem.write ((s.r .sp).toNat - 8) (saved s))).set .sp (s.r .sp - 8)

theorem length_saved : (saved s).length = 8 := by
  rw [saved, List.length_append, length_bytes, length_bytes]

theorem Room.toNat_sub (h : Room s n) : (s.r .sp - 8).toNat = (s.r .sp).toNat - 8 := by
  have hle := h.le
  have hlt := (s.r .sp).isLt
  have h8 : (8 : BitVec 32).toNat = 8 := rfl
  rw [BitVec.toNat_sub, h8]
  omega

theorem Room.toNat_add (h : Room s n) : (s.r .sp - 8 + 4).toNat = (s.r .sp).toNat - 8 + 4 := by
  have hle := h.le
  have hlt := (s.r .sp).isLt
  have h4 : (4 : BitVec 32).toNat = 4 := rfl
  rw [BitVec.toNat_add, h.toNat_sub, h4]
  omega

/-- The function's `push`, when `k` bytes have been stored. -/
theorem Room.exec_push (h : Room s n) (hk : k ≤ n)
    (ht : Filling s [.r1, .r2, .r3, .r12] stock c k t) :
    (Op.push (L := Label) [.r4, .lr]).exec t =
      some ((t.setMem ((pushed s).mem.fill (s.r .r0).toNat k c)).set .sp (s.r .sp - 8), .fall) := by
  have hsp : t.r .sp = s.r .sp := ht.keep _ (by decide)
  have haligned := h.aligned
  have hmapped : t.mem.Mapped ((s.r .sp).toNat - 8) (4 + 4) := by
    rw [ht.mem, Ram.mapped_fill]
    exact h.mapped
  have hfirst := Ram.storeWord_eq (v := (s.r .r4).toNat) (show 4 ∣ (s.r .sp).toNat - 8 by omega)
    (hmapped.mono (by omega))
  have hsecond := Ram.storeWord_eq (v := (s.r .lr).toNat)
    (show 4 ∣ (s.r .sp).toNat - 8 + 4 by omega) (Ram.mapped_write (l := bytes 4 (s.r .r4).toNat)
      (a := (s.r .sp).toNat - 8) |>.mpr hmapped.right)
  have hwrite : (t.mem.write ((s.r .sp).toNat - 8) (bytes 4 (s.r .r4).toNat)).write
      ((s.r .sp).toNat - 8 + 4) (bytes 4 (s.r .lr).toNat) =
        (pushed s).mem.fill (s.r .r0).toNat k c := by
    have happend := Ram.write_append (m := t.mem) (a := (s.r .sp).toNat - 8)
      (l := bytes 4 (s.r .r4).toNat) (r := bytes 4 (s.r .lr).toNat)
    rw [length_bytes] at happend
    rw [happend, ht.mem]
    apply Ram.write_comm
    have hapart := h.apart
    have hle := h.le
    have hlength : (bytes 4 (s.r .r4).toNat ++ bytes 4 (s.r .lr).toNat).length = 8 := length_saved
    rw [List.length_replicate, hlength]
    omega
  have h8 : t.r .sp - BitVec.ofNat 32 (4 * [Reg.r4, .lr].length) = s.r .sp - 8 := by rw [hsp]; rfl
  simp only [Op.exec, h8, State.storeAll, h.toNat_sub, h.toNat_add, ht.keep .r4 (by decide),
    ht.keep .lr (by decide), hfirst, hsecond, hwrite, Option.bind_eq_bind, Option.bind_some]
  rfl

theorem pushed_r {r : Reg} (hr : r ≠ .sp) : (pushed s).r r = s.r r := State.r_set_of_ne _ _ hr

theorem Room.holds (h : Room s n) :
    ((pushed s).mem.fill (s.r .r0).toNat n c).Holds ((s.r .sp).toNat - 8) (saved s) := by
  apply Ram.Holds.write
  · apply Ram.holds_write
    rw [length_saved]
    exact h.mapped
  · have hapart := h.apart
    have hle := h.le
    rw [length_saved, List.length_replicate]
    omega

theorem ofNat_bytes (v : BitVec 32) : BitVec.ofNat 32 (v.toNat % 256 ^ 4) = v := by
  rw [Nat.mod_eq_of_lt (show v.toNat < 256 ^ 4 from v.isLt), BitVec.ofNat_toNat, BitVec.setWidth_eq]

theorem Room.exec_popPc (h : Room s n)
    (ht : Filled (pushed s) [.r1, .r2, .r3, .r4, .r12, .lr] c n t) :
    ∃ u target, (Op.popPc (L := Label) .r4).exec t = some (u, .leave target) ∧
      Returned s c n target u := by
  have haligned := h.aligned
  have hsp : t.r .sp = s.r .sp - 8 := (ht.keep .sp (by decide)).trans (State.r_set_self _ _)
  have hmem : t.mem = (pushed s).mem.fill (s.r .r0).toNat n c := ht.mem
  obtain ⟨hr4, hlr⟩ := Ram.holds_append.mp (hmem ▸ h.holds)
  rw [length_bytes] at hlr
  have hload4 := hr4.loadWord (show 4 ∣ (s.r .sp).toNat - 8 by omega)
  have hloadlr := hlr.loadWord (show 4 ∣ (s.r .sp).toNat - 8 + 4 by omega)
  refine ⟨(t.set .r4 (s.r .r4)).set .sp (s.r .sp - 8 + 8), s.r .lr, ?_, rfl, ?_, ?_⟩
  · simp only [Op.exec, hsp, h.toNat_sub, h.toNat_add, hload4, hloadlr, ofNat_bytes,
      Option.bind_eq_bind, Option.bind_some]
    rfl
  · intro a ha
    rw [State.mem_set, State.mem_set, hmem]
    apply Ram.load_write_congr
    rcases ha with ha | ha
    · exact Ram.load_write_of_lt ha
    · have hle := h.le
      exact Ram.load_write_of_ge (by rw [length_saved]; omega)
  · intro r hr
    by_cases hrsp : r = .sp
    · rw [hrsp, State.r_set_self, BitVec.sub_add_cancel]
    rw [State.r_set_of_ne _ _ hrsp]
    by_cases hr4 : r = .r4
    · rw [hr4, State.r_set_self]
    rw [State.r_set_of_ne _ _ hr4]
    refine (ht.keep r ?_).trans (pushed_r hrsp)
    simp only [List.mem_cons, List.not_mem_nil, or_false] at hr ⊢
    tauto

/-! ## From the entry on -/

theorem Filling.stocked (h : Filling s used [] c k t) (h1 : .r1 ∈ used) (h3 : .r3 ∈ used)
    {v : BitVec 32} (hv : Begins 4 c v) :
    Filling s used [.r1, .r3] c k ((t.set .r1 v).set .r3 v) := by
  have hset := (h.set h1 (by decide) (by decide) v).set h3 (by decide) (by decide) v
  refine ⟨hset.toFilled, hset.ptr, fun r hr ↦ ?_⟩
  simp only [List.mem_cons, List.not_mem_nil, or_false] at hr
  rcases hr with rfl | rfl
  · rwa [State.r_set_of_ne _ _ (by decide), State.r_set_self]
  · rwa [State.r_set_self]

/-- With the stack pointer lowered and the two saved registers in use. -/
theorem Filling.pushed (h : Filling s [.r1, .r2, .r3, .r12] [.r1, .r3] c k t) :
    Filling (pushed s) [.r1, .r2, .r3, .r4, .r12, .lr] [.r1, .r3, .r4, .lr] c k
      (((((t.setMem ((pushed s).mem.fill (s.r .r0).toNat k c)).set .sp (s.r .sp - 8))).set .r4
        (t.r .r1)).set .lr (t.r .r1)) := by
  refine ⟨⟨rfl, fun r hr ↦ ?_⟩, ?_, fun r hr ↦ ?_⟩
  · have hne4 : r ≠ .r4 := by
      rintro rfl
      exact absurd hr (by decide)
    have hnelr : r ≠ .lr := by
      rintro rfl
      exact absurd hr (by decide)
    rw [State.r_set_of_ne _ _ hnelr, State.r_set_of_ne _ _ hne4]
    by_cases hsp : r = .sp
    · rw [hsp, State.r_set_self]
      exact (State.r_set_self _ _).symm
    · rw [State.r_set_of_ne _ _ hsp, pushed_r hsp, State.r_setMem]
      apply h.keep
      simp only [List.mem_cons, List.not_mem_nil, or_false] at hr ⊢
      tauto
  · exact h.ptr
  · have hword := h.word
    simp only [List.mem_cons, List.not_mem_nil, or_false] at hr hword
    rcases hr with rfl | rfl | rfl | rfl
    · exact hword .r1 (.inl rfl)
    · exact hword .r3 (.inr rfl)
    · exact hword .r1 (.inl rfl)
    · exact hword .r1 (.inl rfl)

theorem Filled.returned (h : Filled s [.r1, .r2, .r3, .r12] c n t) :
    Returned s c n (t.r .lr) t := by
  refine ⟨h.keep .lr (by decide), fun a _ ↦ by rw [h.mem], fun r hr ↦ h.keep r ?_⟩
  simp only [List.mem_cons, List.not_mem_nil, or_false] at hr ⊢
  tauto

theorem ends_aligned (hroom : Room s n) (hmapped : s.mem.Mapped (s.r .r0).toNat n)
    (h : Filling s [.r1, .r2, .r3, .r12] [] c k t) (hword : Begins 1 c (t.r .r1))
    (halign : 4 ∣ (s.r .r0).toNat + k) (hcount : k + (t.r .r2).toNat = n) :
    Ends exec memset (behind .aligned memset) t (Returned s c n) := by
  set w := Arm.bfi (t.r .r1) (t.r .r1) 8 8 with hw
  set v := Arm.bfi w w 16 16 with hv
  have h4 : Begins 4 c v := Arm.begins_bfi (Arm.begins_bfi hword (by decide)) (by decide)
  have hbfi : exec (L := Label) ⟨.bfi .r1 .r1 16 16, none⟩ (t.set .r1 w) =
      some (t.set .r1 v, .fall) := by
    simp [Op.exec, hv]
  have hmov : exec (L := Label) ⟨.mov .r3 .r1, none⟩ (t.set .r1 v) =
      some ((t.set .r1 v).set .r3 v, .fall) := by
    simp [Op.exec]
  obtain ⟨u, hu⟩ : ∃ u, u =
      ((t.set .r1 v).set .r3 v).setFlags (Arm.subFlags (t.r .r2) 16) := ⟨_, rfl⟩
  have hcmp : exec (L := Label) ⟨.cmp .r2 16, none⟩ ((t.set .r1 v).set .r3 v) =
      some (u, .fall) := by
    simp [Op.exec, hu]
  have hu2 : u.r .r2 = t.r .r2 := by
    rw [hu, State.r_setFlags, State.r_set_of_ne _ _ (by decide), State.r_set_of_ne _ _ (by decide)]
  have h16 : (16 : BitVec 32).toNat = 16 := rfl
  have hlo : Arm.Cond.lo.holds u.flags = decide ((t.r .r2).toNat < 16) := by
    rw [hu, State.flags_setFlags, Arm.holds_lo, h16]
  have hfilling : Filling s [.r1, .r2, .r3, .r12] [.r1, .r3] c k u :=
    hu ▸ (h.stocked (by decide) (by decide) h4).flags _
  refine Ends.fall rfl (Ends.fall hbfi (Ends.fall hmov (Ends.fall hcmp (ends_b hlo ?_ ?_))))
  · intro hset
    have hlt : (t.r .r2).toNat < 16 := of_decide_eq_true hset
    refine ends_less16 hmapped (by decide) (by decide) hfilling halign (by rw [hu2]; omega) ?_
    intro t' ht'
    exact ht'.returned
  · intro hclear
    have hr0 : (pushed s).r .r0 = s.r .r0 := pushed_r (by decide)
    refine Ends.fall (hroom.exec_push (by omega) hfilling) (Ends.fall rfl (Ends.fall rfl ?_))
    apply Ends.label
    refine ends_write32 (s := pushed s) (Ram.mapped_write.mpr hmapped) (by decide) (by decide)
      hfilling.pushed ?_ ?_ fun t' ↦ hroom.exec_popPc
    · rwa [hr0]
    · rw [State.r_set_of_ne _ _ (by decide), State.r_set_of_ne _ _ (by decide),
        State.r_set_of_ne _ _ (by decide), State.r_setMem, hu2]
      exact hcount

theorem tst_iff (a : ℕ) : ((BitVec.ofNat 32 a &&& 3) == 0) = true ↔ 4 ∣ a :=
  beq_iff_eq.trans (Arm.ofNat_and_eq_zero a 2 (by decide))

/-- Induct on what is left of the count. -/
theorem ends_unaligned (hroom : Room s n) (hmapped : s.mem.Mapped (s.r .r0).toNat n)
    (h : Filling s [.r1, .r2, .r3, .r12] [] c k t) (hword : Begins 1 c (t.r .r1))
    (hcount : k + (t.r .r2).toNat = n) :
    Ends exec memset (behind .unaligned memset) t (Returned s c n) := by
  induction hx : (t.r .r2).toNat using Nat.strong_induction_on generalizing k t with
  | _ x ih =>
      have h1 : (1 : BitVec 32).toNat = 1 := rfl
      obtain ⟨t0, ht0⟩ : ∃ t0, t0 = (t.set .r2 (t.r .r2 - 1)).setFlags (Arm.subFlags (t.r .r2) 1) :=
        ⟨_, rfl⟩
      have hr2 : (t0.r .r2).toNat = (2 ^ 32 - 1 + x) % 2 ^ 32 := by
        rw [ht0, State.r_setFlags, State.r_set_self, BitVec.toNat_sub, h1, hx]
      have hr1 : t0.r .r1 = t.r .r1 := by
        rw [ht0, State.r_setFlags, State.r_set_of_ne _ _ (by decide)]
      have hhs : Arm.Cond.hs.holds t0.flags = decide (1 ≤ x) := by
        rw [ht0, State.flags_setFlags, Arm.holds_hs, h1, hx]
      have hls : Arm.Cond.ls.holds t0.flags = decide (x ≤ 1) := by
        rw [ht0, State.flags_setFlags, Arm.holds_ls, h1, hx]
      have h0 : Filling s [.r1, .r2, .r3, .r12] [] c k t0 :=
        ht0 ▸ (h.set (by decide) (by decide) (by decide) _).flags _
      have hlt : x < 2 ^ 32 := hx ▸ (t.r .r2).isLt
      rw [← hr1] at hword
      refine Ends.fall (show exec _ t = some (t0, .fall) by rw [ht0]; rfl) ?_
      by_cases hpos : 1 ≤ x
      · have hstore := h0.exec_str Nat.one_pos rfl hword (Nat.one_dvd _)
          (hmapped.mono (by omega))
        obtain ⟨t1, ht1⟩ : ∃ t1, t1 = advance s c (k + 1) t0 := ⟨_, rfl⟩
        have hexec : exec (L := Label) ⟨.str 1 .r1 .r12 1, some .hs⟩ t0 = some (t1, .fall) := by
          simp [exec, Instr.passes, hhs, hpos, hstore, ht1]
        have h2 : Filling s [.r1, .r2, .r3, .r12] [] c (k + 1) t1 :=
          ht1 ▸ h0.advance (by decide) (by decide) (k + 1)
        have hword1 : Begins 1 c (t1.r .r1) := by rwa [ht1]
        have hr21 : (t1.r .r2).toNat = x - 1 := by
          rw [show t1.r .r2 = t0.r .r2 by rw [ht1]; rfl, hr2]
          omega
        refine Ends.fall hexec (ends_leave (show _ = decide (x ≤ 1) by rw [ht1]; exact hls) ?_ ?_)
        · intro hset
          have hle : x ≤ 1 := of_decide_eq_true hset
          rw [show k + 1 = n by omega] at h2
          exact ⟨t1, _, rfl, h2.toFilled.returned⟩
        intro hclear
        have hgt : ¬ x ≤ 1 := of_decide_eq_false hclear
        have hptr := h2.ptr
        refine Ends.fall rfl (ends_b rfl ?_ ?_)
        · intro _
          exact ih (x - 1) (by omega) (h2.flags _) hword1 (by rw [State.r_setFlags]; omega) hr21
        · intro heven
          refine Ends.label (ends_aligned hroom hmapped (h2.flags _) hword1 ?_ ?_)
          · rw [← tst_iff, ← hptr]
            simpa [Arm.Cond.holds] using heven
          · rw [State.r_setFlags]
            omega
      · have hexec : exec (L := Label) ⟨.str 1 .r1 .r12 1, some .hs⟩ t0 = some (t0, .fall) := by
          simp [exec, Instr.passes, hhs, hpos]
        refine Ends.fall hexec (ends_leave hls ?_ ?_)
        · intro _
          rw [show k = n by omega] at h0
          exact ⟨t0, _, rfl, h0.toFilled.returned⟩
        · intro hclear
          have hgt : ¬ x ≤ 1 := of_decide_eq_false hclear
          omega

/-- From any state in which the bytes that are to be filled and two words of the
stack can be stored, the function returns to its caller. -/
theorem ends_memset (hroom : Room s (s.r .r2).toNat)
    (hmapped : s.mem.Mapped (s.r .r0).toNat (s.r .r2).toNat) :
    Ends exec memset memset s (Returned s (Ram.lowByte (s.r .r1)) (s.r .r2).toNat) := by
  obtain ⟨u, hu⟩ : ∃ u, u = s.set .r12 (s.r .r0) := ⟨_, rfl⟩
  have hother : ∀ r ≠ .r12, u.r r = s.r r := fun r hr ↦ hu ▸ State.r_set_of_ne _ _ hr
  have hfilling : Filling s [.r1, .r2, .r3, .r12] [] (Ram.lowByte (s.r .r1)) 0 u := by
    refine ⟨⟨by simp [hu], fun r hr ↦ hother r ?_⟩, by simp [hu], fun r hr ↦ by cases hr⟩
    rintro rfl
    exact absurd hr (by decide)
  have hword : Begins 1 (Ram.lowByte (s.r .r1)) (u.r .r1) := by
    rw [hother .r1 (by decide)]
    exact begins_one.mpr rfl
  have hcount : 0 + (u.r .r2).toNat = (s.r .r2).toNat := by
    rw [hother .r2 (by decide), Nat.zero_add]
  refine Ends.fall (show exec _ s = some (u, .fall) by rw [hu]; rfl)
    (Ends.fall rfl (ends_b rfl ?_ ?_))
  · intro heq
    refine ends_aligned hroom hmapped (hfilling.flags _) hword ?_ hcount
    rw [← tst_iff, Nat.add_zero, BitVec.ofNat_toNat, BitVec.setWidth_eq, ← hother .r0 (by decide)]
    exact heq
  · intro _
    exact Ends.label (ends_unaligned hroom hmapped (hfilling.flags _) hword hcount)

end BaizeBoard.MemsetA32

namespace BaizeBoard

open A32

/-- Called by the procedure call standard, `aarch32/memset.S` returns with the pointer
and, outside the two words below the stack pointer, the memory that `memset.c` gives;
it restores the stack pointer and every register that a function has to keep. -/
theorem memsetA32_refines (s : State) (hroom : MemsetA32.Room s (s.r .r2).toNat)
    (h : s.mem.Mapped (s.r .r0).toNat (s.r .r2).toNat) :
    ∃ t m', StateTransition.eval (Asm.step exec MemsetA32.memset) (.at MemsetA32.memset s) =
        Part.some (.left (s.r .lr) t) ∧
      memset s.mem (s.r .r0).toNat (s.r .r1) (s.r .r2).toNat = some (m', (t.r .r0).toNat) ∧
      (∀ a, a < (s.r .sp).toNat - 8 ∨ (s.r .sp).toNat ≤ a → t.mem.load a = m'.load a) ∧
      ∀ r ∉ [.r1, .r2, .r3, .r12, .lr], t.r r = s.r r := by
  obtain ⟨target, t, heval, rfl, hmem, hkeep⟩ := MemsetA32.ends_memset hroom h
  refine ⟨t, _, heval, ?_, hmem, hkeep⟩
  rw [Memset.memset_eq h, hkeep .r0 (by decide)]

/-- 21 bytes from `0x105` on, with the stack pointer at `0x128`. -/
theorem memsetA32_refines_example :
    let s : State := {
      r := fun r ↦ if r = .r0 then 0x105 else if r = .r1 then 0x1ab else if r = .r2 then 21
        else if r = .sp then 0x128 else 0x8000
      flags := ⟨false, false, false, false⟩
      mem := Ram.image 32 0x100 (List.replicate 40 0) }
    ∃ t m', StateTransition.eval (Asm.step exec MemsetA32.memset) (.at MemsetA32.memset s) =
        Part.some (.left (s.r .lr) t) ∧
      memset s.mem (s.r .r0).toNat (s.r .r1) (s.r .r2).toNat = some (m', (t.r .r0).toNat) ∧
      (∀ a, a < (s.r .sp).toNat - 8 ∨ (s.r .sp).toNat ≤ a → t.mem.load a = m'.load a) ∧
      ∀ r ∉ [.r1, .r2, .r3, .r12, .lr], t.r r = s.r r :=
  memsetA32_refines _ ⟨by decide, by decide, by decide, by decide⟩ (by decide)

end BaizeBoard
