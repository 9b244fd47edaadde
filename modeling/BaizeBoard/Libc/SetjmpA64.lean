import BaizeBoard.Library.A64

/-!
# `setjmp` and `longjmp`

`aarch64/setjmp.S` line by line, without `ENABLE_ASSERTIONS`.  The jump buffer
holds the registers that a function has to keep, the return address and the stack
pointer of the caller of `setjmp`.
-/

namespace BaizeBoard.SetjmpA64

open A64 Asm

/-- There are no labels in the two functions. -/
abbrev Label := Empty

def jmpCtxX19 : BitVec 64 := 0x0

def jmpCtxX21 : BitVec 64 := 0x10

def jmpCtxX23 : BitVec 64 := 0x20

def jmpCtxX25 : BitVec 64 := 0x30

def jmpCtxX27 : BitVec 64 := 0x40

def jmpCtxX29 : BitVec 64 := 0x50

def jmpCtxSp : BitVec 64 := 0x60

def jmpCtxEnd : ℕ := 0x70

def setjmp : Code Label :=
  [.op (.mov .x7 (.reg .sp)),
    .op (.stp .x19 .x20 .x0 (.offset jmpCtxX19)),
    .op (.stp .x21 .x22 .x0 (.offset jmpCtxX21)),
    .op (.stp .x23 .x24 .x0 (.offset jmpCtxX23)),
    .op (.stp .x25 .x26 .x0 (.offset jmpCtxX25)),
    .op (.stp .x27 .x28 .x0 (.offset jmpCtxX27)),
    .op (.stp .x29 .x30 .x0 (.offset jmpCtxX29)),
    .op (.stp .x7 .xzr .x0 (.offset jmpCtxSp)),
    .op (.mov .x0 (.imm 0)),
    .op .ret]

def longjmp : Code Label :=
  [.op (.ldp .x7 .xzr .x0 (.offset jmpCtxSp)),
    .op (.ldp .x19 .x20 .x0 (.offset jmpCtxX19)),
    .op (.ldp .x21 .x22 .x0 (.offset jmpCtxX21)),
    .op (.ldp .x23 .x24 .x0 (.offset jmpCtxX23)),
    .op (.ldp .x25 .x26 .x0 (.offset jmpCtxX25)),
    .op (.ldp .x27 .x28 .x0 (.offset jmpCtxX27)),
    .op (.ldp .x29 .x30 .x0 (.offset jmpCtxX29)),
    .op (.mov .sp (.reg .x7)),
    .op (.ands .x0 .x1 (.reg .x1)),
    .op (.cinc .x0 .x0 .eq),
    .op .ret]

/-- The registers that come back. -/
def kept : List Reg :=
  [.x19, .x20, .x21, .x22, .x23, .x24, .x25, .x26, .x27, .x28, .x29, .x30, .sp]

/-- What a jump buffer holds. -/
def context (s : State) : List (BitVec 64) := kept.map s.get ++ [0]

theorem length_context (s : State) : (context s).length = 14 := rfl

variable {s : State} {Q : BitVec 64 → State → Prop} {code : Code Label} {a : ℕ}

/-! ## `setjmp` -/

/-- The pair of slots `n` and `n + 1` of the buffer. -/
theorem ends_stp (n : ℕ) {vs : List (BitVec 64)} {r r' : Reg} {offset : BitVec 64}
    (hn : vs.length = n) (hle : n + 2 ≤ 14) (hoffset : offset = BitVec.ofNat 64 (8 * n))
    (halign : 8 ∣ (s.get .x0).toNat)
    (hmapped : s.mem.Mapped (s.get .x0).toNat jmpCtxEnd)
    (hnext : Ends exec setjmp code (s.setMem (s.mem.write (s.get .x0).toNat
      (Ram.words (vs ++ [s.get r, s.get r'])))) Q) :
    Ends exec setjmp (.op (.stp r r' .x0 (.offset offset)) :: code)
      (s.setMem (s.mem.write (s.get .x0).toNat (Ram.words vs))) Q := by
  subst hn
  have hend : 8 * (vs.length + 2) ≤ jmpCtxEnd := by
    rw [jmpCtxEnd]
    omega
  refine Ends.fall (exec_stp (State.mem_setMem _ _) ?_ halign (hmapped.mono hend)) ?_
  · rw [State.get_setMem, hoffset, BitVec.ofNat_add, BitVec.ofNat_toNat, BitVec.setWidth_eq]
  · rw [State.get_setMem, State.get_setMem]
    exact hnext

/-- The state when `setjmp` returns for the first time. -/
def returned (s : State) : State :=
  (((s.set .x7 (s.get .sp)).setMem
    (s.mem.write (s.get .x0).toNat (Ram.words (context s)))).set .x0 0)

theorem ends_setjmp (halign : 8 ∣ (s.get .x0).toNat)
    (hmapped : s.mem.Mapped (s.get .x0).toNat jmpCtxEnd) :
    Ends exec setjmp setjmp s fun target t ↦ target = s.get .x30 ∧ t = returned s := by
  obtain ⟨u, hu⟩ : ∃ u, u = s.set .x7 (s.get .sp) := ⟨_, rfl⟩
  have hx0 : u.get .x0 = s.get .x0 := hu ▸ State.get_set_of_ne _ _ (by decide)
  have hmem : u.mem = s.mem := hu ▸ State.mem_set _ _
  rw [← hx0] at halign
  rw [← hmem, ← hx0] at hmapped
  have hself : u = u.setMem (u.mem.write (u.get .x0).toNat (Ram.words [])) := by
    rw [show Ram.words [] = [] from rfl, Ram.write_nil]
    rfl
  refine Ends.fall (show exec _ s = some (u, .fall) by rw [hu]; rfl) ?_
  rw [hself]
  refine ends_stp 0 rfl (by decide) rfl halign hmapped ?_
  refine ends_stp 2 rfl (by decide) rfl halign hmapped ?_
  refine ends_stp 4 rfl (by decide) rfl halign hmapped ?_
  refine ends_stp 6 rfl (by decide) rfl halign hmapped ?_
  refine ends_stp 8 rfl (by decide) rfl halign hmapped ?_
  refine ends_stp 10 rfl (by decide) rfl halign hmapped ?_
  refine ends_stp 12 rfl (by decide) rfl halign hmapped ?_
  refine Ends.fall rfl (Ends.leave rfl ⟨?_, ?_⟩)
  · rw [State.get_set_of_ne _ _ (by decide), State.get_setMem, hu,
      State.get_set_of_ne _ _ (by decide)]
  · have hother : ∀ r ≠ .x7, u.get r = s.get r := fun r hr ↦ hu ▸ State.get_set_of_ne _ _ hr
    have h7 : u.get .x7 = s.get .sp := hu ▸ State.get_set_self _ _ (by decide)
    rw [returned, ← hu, hmem, hx0]
    simp [context, kept, h7, hother]

/-! ## `longjmp` -/

/-- Since the state `u`, the registers `done` have come back from the state `s`. -/
structure Restored (s u : State) (done : List Reg) (t : State) : Prop where
  mem : t.mem = u.mem
  restored : ∀ r ∈ done, t.get r = s.get r
  others : ∀ r ∉ .x7 :: done, t.get r = u.get r
  x7 : t.get .x7 = s.get .sp

variable {t u : State} {done : List Reg}

theorem Restored.set (h : Restored s u done t) {r : Reg} (h7 : r ≠ .x7) (hz : r ≠ .xzr) :
    Restored s u (r :: done) (t.set r (s.get r)) := by
  refine ⟨(State.mem_set _ _).trans h.mem, fun r' hr' ↦ ?_, fun r' hr' ↦ ?_, ?_⟩
  · by_cases hne : r' = r
    · rw [hne, State.get_set_self _ _ hz]
    · rw [State.get_set_of_ne _ _ hne, h.restored r' ((List.mem_cons.mp hr').resolve_left hne)]
  · simp only [List.mem_cons, not_or] at hr'
    rw [State.get_set_of_ne _ _ hr'.2.1, h.others r' (by simpa using ⟨hr'.1, hr'.2.2⟩)]
  · rw [State.get_set_of_ne _ _ h7.symm, h.x7]

variable (halign : 8 ∣ (u.get .x0).toNat)
  (hholds : u.mem.Holds (u.get .x0).toNat (Ram.words (context s)))
include halign hholds

theorem exec_ldp_context (hmem : t.mem = u.mem) (hx0 : t.get .x0 = u.get .x0) {r r' : Reg}
    {offset v w : BitVec 64} {i : ℕ} (hv : (context s)[i]? = some v)
    (hw : (context s)[i + 1]? = some w) (hoffset : offset = BitVec.ofNat 64 (8 * i)) :
    exec (L := Label) (.ldp r r' .x0 (.offset offset)) t =
      some ((t.set r v).set r' w, .fall) := by
  apply exec_ldp (hmem ▸ hholds) halign hv hw
  rw [hx0, hoffset, BitVec.ofNat_add, BitVec.ofNat_toNat, BitVec.setWidth_eq]

/-- The pair of slots `n` and `n + 1` of the buffer. -/
theorem ends_ldp (n : ℕ) (h : Restored s u done t) {r r' : Reg} {offset : BitVec 64}
    (hoffset : offset = BitVec.ofNat 64 (8 * n)) (hr : (context s)[n]? = some (s.get r))
    (hr' : (context s)[n + 1]? = some (s.get r'))
    (hpair : r ≠ .x7 ∧ r ≠ .xzr ∧ r' ≠ .x7 ∧ r' ≠ .xzr) (hx0 : .x0 ∉ done)
    (hnext : ∀ t', Restored s u (r' :: r :: done) t' → Ends exec longjmp code t' Q) :
    Ends exec longjmp (.op (.ldp r r' .x0 (.offset offset)) :: code) t Q := by
  have hbuf : t.get .x0 = u.get .x0 := h.others _ (by simpa using hx0)
  exact Ends.fall (exec_ldp_context halign hholds h.mem hbuf hr hr' hoffset)
    (hnext _ ((h.set hpair.1 hpair.2.1).set hpair.2.2.1 hpair.2.2.2))

theorem ends_longjmp :
    Ends exec longjmp longjmp u fun target t ↦ target = s.get .x30 ∧
      t.mem = u.mem ∧ (∀ r ∈ kept, t.get r = s.get r) ∧
      t.get .x0 = (if u.get .x1 = 0 then 1 else u.get .x1) ∧
      ∀ r ∉ .x0 :: .x7 :: kept, t.get r = u.get r := by
  have hload : exec (L := Label) (.ldp .x7 .xzr .x0 (.offset jmpCtxSp)) u = _ :=
    exec_ldp_context (i := 12) halign hholds rfl rfl (v := s.get .sp) rfl rfl rfl
  have hstart : Restored s u [] (u.set .x7 (s.get .sp)) := by
    refine ⟨State.mem_set _ _, fun r hr ↦ ?_, fun r hr ↦ ?_, State.get_set_self _ _ (by decide)⟩
    · cases hr
    · exact State.get_set_of_ne _ _ (by simpa using hr)
  refine Ends.fall hload ?_
  refine ends_ldp halign hholds 0 hstart rfl rfl rfl (by decide) (by decide) ?_
  intro t1 h1
  refine ends_ldp halign hholds 2 h1 rfl rfl rfl (by decide) (by decide) ?_
  intro t2 h2
  refine ends_ldp halign hholds 4 h2 rfl rfl rfl (by decide) (by decide) ?_
  intro t3 h3
  refine ends_ldp halign hholds 6 h3 rfl rfl rfl (by decide) (by decide) ?_
  intro t4 h4
  refine ends_ldp halign hholds 8 h4 rfl rfl rfl (by decide) (by decide) ?_
  intro t5 h5
  refine ends_ldp halign hholds 10 h5 rfl rfl rfl (by decide) (by decide) ?_
  intro t6 h6
  have h7 := h6.set (r := .sp) (by decide) (by decide)
  have hmov : exec (L := Label) (.mov .sp (.reg .x7)) t6 =
      some (t6.set .sp (s.get .sp), .fall) := by
    simp [exec, h6.x7]
  obtain ⟨t7, ht7⟩ : ∃ t7, t7 = t6.set .sp (s.get .sp) := ⟨_, rfl⟩
  rw [← ht7] at h7 hmov
  have hval : t7.get .x1 &&& t7.get .x1 = u.get .x1 := by
    rw [BitVec.and_self, h7.others _ (by decide)]
  have hands : exec (L := Label) (.ands .x0 .x1 (.reg .x1)) t7 =
      some ((t7.set .x0 (u.get .x1)).setFlags
        ⟨(u.get .x1).msb, u.get .x1 == 0, false, false⟩, .fall) := by
    simp [exec, hval]
  refine Ends.fall hmov (Ends.fall hands (Ends.fall rfl (Ends.leave rfl ?_)))
  have hother : ∀ {f : Arm.Flags} {v w} (r : Reg), r ≠ .x0 →
      (((t7.set .x0 v).setFlags f).set .x0 w).get r = t7.get r := by
    intro f v w r hr
    rw [State.get_set_of_ne _ _ hr, State.get_setFlags, State.get_set_of_ne _ _ hr]
  refine ⟨?_, ?_, fun r hr ↦ ?_, ?_, fun r hr ↦ ?_⟩
  · rw [hother _ (by decide), h7.restored _ (by decide)]
  · rw [State.mem_set, State.mem_setFlags, State.mem_set, h7.mem]
  · have hr0 : r ≠ .x0 := by
      rintro rfl
      exact absurd hr (by decide)
    rw [hother r hr0]
    exact h7.restored r ((show kept ⊆ _ by decide) hr)
  · rw [State.get_set_self _ _ (by decide)]
    by_cases hz : u.get .x1 = 0#64
    · simp [hz, Arm.Cond.holds]
    · simp [hz, Arm.Cond.holds]
  · rw [List.mem_cons, not_or] at hr
    rw [hother r hr.1]
    exact h7.others r fun hmem ↦ hr.2 ((show _ ⊆ .x7 :: kept by decide) hmem)

end BaizeBoard.SetjmpA64

namespace BaizeBoard

open A64 SetjmpA64

/-- `setjmp` returns 0 and keeps every register but `x0` and `x7`.  However the program
goes on, as long as the buffer stays as it is, `longjmp` leaves for the same return
address with all registers that a function has to keep, and the stack pointer, as
they were; it stores nothing. -/
theorem longjmp_returns (s : State) (halign : 8 ∣ (s.get .x0).toNat)
    (hmapped : s.mem.Mapped (s.get .x0).toNat jmpCtxEnd) :
    ∃ t, StateTransition.eval (Asm.step exec setjmp) (.at setjmp s) =
        Part.some (.left (s.get .x30) t) ∧
      t.get .x0 = 0 ∧ (∀ r ∉ [.x0, .x7], t.get r = s.get r) ∧
      (∀ a, a < (s.get .x0).toNat ∨ (s.get .x0).toNat + jmpCtxEnd ≤ a →
        t.mem.load a = s.mem.load a) ∧
      ∀ u : State, u.get .x0 = s.get .x0 →
        (∀ i < jmpCtxEnd, u.mem.load ((s.get .x0).toNat + i) =
          t.mem.load ((s.get .x0).toNat + i)) →
        ∃ v, StateTransition.eval (Asm.step exec longjmp) (.at longjmp u) =
            Part.some (.left (s.get .x30) v) ∧
          v.get .x0 = (if u.get .x1 = 0 then 1 else u.get .x1) ∧
          (∀ r ∈ kept, v.get r = s.get r) ∧ v.mem = u.mem ∧
          ∀ r ∉ .x0 :: .x7 :: kept, v.get r = u.get r := by
  obtain ⟨target, t, heval, rfl, rfl⟩ := ends_setjmp halign hmapped
  have hlength : (Ram.words (context s)).length = jmpCtxEnd := by
    rw [Ram.length_words, length_context]
    rfl
  refine ⟨_, heval, State.get_set_self _ _ (by decide), fun r hr ↦ ?_, fun a ha ↦ ?_, ?_⟩
  · simp only [List.mem_cons, List.not_mem_nil, or_false, not_or] at hr
    rw [returned, State.get_set_of_ne _ _ hr.1, State.get_setMem, State.get_set_of_ne _ _ hr.2]
  · rw [returned, State.mem_set, State.mem_setMem]
    rcases ha with ha | ha
    · exact Ram.load_write_of_lt ha
    · exact Ram.load_write_of_ge (by rwa [hlength])
  · intro u hx0 hbuf
    have hholds : u.mem.Holds (u.get .x0).toNat (Ram.words (context s)) := by
      rw [hx0]
      have hwritten : (returned s).mem.Holds (s.get .x0).toNat (Ram.words (context s)) := by
        rw [returned, State.mem_set, State.mem_setMem]
        exact Ram.holds_write (by rwa [hlength])
      exact hwritten.congr fun i hi ↦ hbuf i (hlength ▸ hi)
    obtain ⟨target, v, hrun, rfl, hmem, hkept, hval, hothers⟩ :=
      ends_longjmp (hx0 ▸ halign) hholds
    exact ⟨v, hrun, hval, hkept, hmem, hothers⟩

/-- A buffer at `0x1000`. -/
theorem longjmp_returns_example :
    let s : State := {
      x := fun r ↦ if r = .x0 then 0x1000 else 0x80
      flags := ⟨false, false, false, false⟩
      mem := Ram.image 64 0x1000 (List.replicate 0x70 0) }
    ∃ t, StateTransition.eval (Asm.step exec setjmp) (.at setjmp s) =
        Part.some (.left (s.get .x30) t) ∧
      t.get .x0 = 0 ∧ (∀ r ∉ [.x0, .x7], t.get r = s.get r) ∧
      (∀ a, a < (s.get .x0).toNat ∨ (s.get .x0).toNat + jmpCtxEnd ≤ a →
        t.mem.load a = s.mem.load a) ∧
      ∀ u : State, u.get .x0 = s.get .x0 →
        (∀ i < jmpCtxEnd, u.mem.load ((s.get .x0).toNat + i) =
          t.mem.load ((s.get .x0).toNat + i)) →
        ∃ v, StateTransition.eval (Asm.step exec longjmp) (.at longjmp u) =
            Part.some (.left (s.get .x30) v) ∧
          v.get .x0 = (if u.get .x1 = 0 then 1 else u.get .x1) ∧
          (∀ r ∈ kept, v.get r = s.get r) ∧ v.mem = u.mem ∧
          ∀ r ∉ .x0 :: .x7 :: kept, v.get r = u.get r :=
  longjmp_returns _ (by decide) (by decide)

/-- The second return of `setjmp` gives `val`, or 1 for a `val` of 0, except where the
caller has left something in `x1` above a `val` of 0: all of `x1` is compared with 0. -/
theorem longjmp_value_iff (s u : State) (halign : 8 ∣ (u.get .x0).toNat)
    (hholds : u.mem.Holds (u.get .x0).toNat (Ram.words (context s))) :
    ∃ target v, StateTransition.eval (Asm.step exec longjmp) (.at longjmp u) =
        Part.some (.left target v) ∧
      ((v.get .x0).setWidth 32 =
          (if (u.get .x1).setWidth 32 = 0#32 then 1 else (u.get .x1).setWidth 32) ↔
        ((u.get .x1).setWidth 32 = 0#32 → u.get .x1 = 0)) := by
  obtain ⟨target, v, hrun, -, -, -, hval, -⟩ := ends_longjmp halign hholds
  refine ⟨target, v, hrun, ?_⟩
  rw [hval]
  by_cases hx1 : u.get .x1 = 0
  · simp [hx1]
  · rw [if_neg hx1]
    by_cases hw1 : (u.get .x1).setWidth 32 = 0#32
    · simpa [hw1] using hx1
    · simp [hw1]

/-- `longjmp(env, 0)` with bit 32 of `x1` set makes `setjmp` return 0 again. -/
theorem longjmp_value_iff_example :
    let s : State := {
      x := fun _ ↦ 0x80
      flags := ⟨false, false, false, false⟩
      mem := Ram.image 64 0x1000 [] }
    let u : State := {
      x := fun r ↦ if r = .x0 then 0x1000 else 0x100000000
      flags := ⟨false, false, false, false⟩
      mem := Ram.image 64 0x1000 (Ram.words (context s)) }
    ∃ target v, StateTransition.eval (Asm.step exec longjmp) (.at longjmp u) =
        Part.some (.left target v) ∧
      ((v.get .x0).setWidth 32 =
          (if (u.get .x1).setWidth 32 = 0#32 then 1 else (u.get .x1).setWidth 32) ↔
        ((u.get .x1).setWidth 32 = 0#32 → u.get .x1 = 0)) :=
  longjmp_value_iff
    ⟨fun _ ↦ 0x80, ⟨false, false, false, false⟩, Ram.image 64 0x1000 []⟩ _ (by decide)
    (Ram.holds_image (by rw [Ram.length_words]; decide))

end BaizeBoard
