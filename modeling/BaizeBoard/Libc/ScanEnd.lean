import BaizeBoard.Libc.VprintfRun
import BaizeBoard.Libc.VsnprintfRun
import BaizeBoard.Libc.Walk

/-!
# No scan past the end of the format

Both formatters step like the walk over their format.  `vprintf` returns at a
specifier that it does not know, the NUL included.  `vsnprintf` means to panic
there; its `plat_panic_handler()` is nothing in this port, so what is left is
the `assert(0)` marked as unreachable.
-/

namespace BaizeBoard

namespace Vprintf

def Mode.kind : Mode → Kind
  | .scan => .scan
  | .directive => .directive
  | .width => .width
  | .string str _ => .string str
  | .returned _ | .fault _ => .halted

def State.pos (s : State) : Pos := { kind := s.mode.kind, fmt := s.fmt, args := s.args }

theorem pos_numPrint (s : State) (unum : BitVec 64) {radix : ℕ} (hradix : 10 ≤ radix) :
    (s.numPrint unum radix).pos = s.pos.next := by
  simp only [State.numPrint, unsignedNumPrint_eq _ _ hradix]
  rfl

theorem pos_signed (s : State) (arg : BitVec 64) : (s.signed arg).pos = s.pos.next := by
  simp only [State.signed]
  split <;> exact pos_numPrint _ _ (by decide)

theorem pos_pointer (s : State) (arg : BitVec 64) : (s.pointer arg).pos = s.pos.next := by
  simp only [State.pointer]
  split <;> exact pos_numPrint _ _ (by decide)

theorem pos_unsigned (s : State) {radix : ℕ} (hradix : 10 ≤ radix) (arg : BitVec 64) :
    (s.unsigned radix arg).pos = s.pos.next :=
  pos_numPrint s _ hradix

theorem pos_string (asserts : Bool) (s : State) (arg : BitVec 64) :
    (s.string asserts arg).pos = Pos.string .printf asserts s.pos arg := by
  simp only [State.string, Pos.string, true_and]
  split <;> rfl

theorem pos_vaArg {k : State → BitVec 64 → State} {g : Pos → BitVec 64 → Pos}
    (hk : ∀ s arg, (k s arg).pos = g s.pos arg) (s : State) :
    (s.vaArg k).pos = s.pos.vaArg g := by
  simp only [State.vaArg, Pos.vaArg, hk]
  rfl

theorem pos_switch (asserts : Bool) (s : State) (c : UInt8) :
    (s.switch asserts c).pos = s.pos.switch .printf asserts c := by
  unfold Pos.switch
  by_cases hzero : c = '0'.toUInt8
  · rw [hzero]
    rfl
  · rw [if_neg (by simpa [Dialect.opensWidth] using hzero)]
    cases hopt : Dialect.opt .printf c with
    | some o => rcases switch_opt asserts s hopt with ⟨-, h⟩ | ⟨-, h⟩ <;> rw [h] <;> rfl
    | none =>
        cases hconv : Dialect.conv .printf c with
        | none =>
            rw [switch_default asserts s hzero hopt hconv]
            rfl
        | some k =>
            obtain ⟨hswitch, hk⟩ := switch_conv asserts s hconv
            rw [hswitch]
            cases k with
            | percent => rfl
            | s => exact pos_vaArg (pos_string asserts) s
            | num conv =>
                cases conv with
                | d | i => exact pos_vaArg (g := fun p _ ↦ p.next) pos_signed s
                | u =>
                    exact pos_vaArg (g := fun p _ ↦ p.next)
                      (fun s arg ↦ pos_unsigned s (by decide) arg) s
                | x =>
                    exact pos_vaArg (g := fun p _ ↦ p.next)
                      (fun s arg ↦ pos_unsigned s (by decide) arg) s
                | p => exact pos_vaArg (g := fun p _ ↦ p.next) pos_pointer s
                | capX => exact absurd rfl hk

theorem map_step (mem : Mem) (asserts : Bool) (s : State) :
    (step mem asserts s).map State.pos = move .printf asserts mem s.pos := by
  cases hmode : s.mode with
  | scan =>
      simp only [step, move, State.pos, hmode, Mode.kind]
      split
      · rfl
      · split <;> rfl
  | directive =>
      simp only [step, hmode, Option.map_some, pos_switch]
      simp only [move, State.pos, hmode, Mode.kind]
  | width =>
      simp only [step, move, State.pos, hmode, Mode.kind]
      cases hdigit : isDigit (mem s.fmt) with
      | false =>
          rw [if_pos (width_ends hdigit)]
          rfl
      | true =>
          rw [if_neg (not_width_ends hdigit)]
          rfl
  | string str count =>
      simp only [step, move, State.pos, hmode, Mode.kind]
      split <;> rfl
  | returned result => simp only [step, move, State.pos, hmode, Mode.kind, Option.map_none]
  | fault f => simp only [step, move, State.pos, hmode, Mode.kind, Option.map_none]

end Vprintf

namespace Vsnprintf

def Mode.kind : Mode → Kind
  | .scan => .scan
  | .directive => .directive
  | .width => .width
  | .string str => .string str
  | .finished | .fault _ => .halted

def State.pos (s : State) : Pos := { kind := s.mode.kind, fmt := s.fmt, args := s.args }

variable (asserts : Bool) (n : ℕ)

theorem pos_numPrint (s : State) (unum : BitVec 64) {radix : ℕ} (hradix : 10 ≤ radix)
    (capitalise : Bool) : (s.numPrint asserts n unum radix capitalise).pos = s.pos.next := by
  simp only [State.numPrint, unsignedNumPrint_eq _ _ _ _ hradix]
  rfl

theorem pos_signed (s : State) (arg : BitVec 64) :
    (s.signed asserts n arg).pos = s.pos.next := by
  simp only [State.signed]
  split <;> exact pos_numPrint asserts n _ _ (by decide) _

theorem pos_pointer (s : State) (arg : BitVec 64) :
    (s.pointer asserts n arg).pos = s.pos.next := by
  simp only [State.pointer]
  split <;> exact pos_numPrint asserts n _ _ (by decide) _

theorem pos_unsigned (s : State) {radix : ℕ} (hradix : 10 ≤ radix) (capitalise : Bool)
    (arg : BitVec 64) : (s.unsigned asserts n radix capitalise arg).pos = s.pos.next :=
  pos_numPrint asserts n s _ hradix capitalise

theorem pos_vaArg {k : State → BitVec 64 → State} {g : Pos → BitVec 64 → Pos}
    (hk : ∀ s arg, (k s arg).pos = g s.pos arg) (s : State) :
    (s.vaArg k).pos = s.pos.vaArg g := by
  simp only [State.vaArg, Pos.vaArg, hk]
  rfl

theorem switch_default (s : State) {c : UInt8} (hdigit : isDigit c = false)
    (hopt : Dialect.opt .snprintf c = none) (hconv : Dialect.conv .snprintf c = none) :
    s.switch asserts n c = if asserts then { s with mode := .fault .assertion } else s.next := by
  obtain ⟨hl, hz, hminus⟩ := opt_eq_none hopt
  obtain ⟨hpercent, hs, hd, hi, hu, hx, hp, hcapX⟩ := conv_eq_none hconv
  simp only [State.switch, hpercent, hdigit, hs, hd, hi, hu, hx, hp, hl, hz, hminus rfl, hcapX rfl,
    or_self, Bool.false_eq_true, if_false]

theorem pos_switch (s : State) (c : UInt8) :
    (s.switch asserts n c).pos = s.pos.switch .snprintf asserts c := by
  unfold Pos.switch
  cases hdigit : isDigit c with
  | true =>
      have hwidth : Dialect.opensWidth .snprintf c = true := hdigit
      rw [switch_digit asserts n s hdigit, if_pos hwidth]
      rfl
  | false =>
      rw [if_neg (by simpa [Dialect.opensWidth] using hdigit)]
      cases hopt : Dialect.opt .snprintf c with
      | some o =>
          obtain ⟨hmode, hfmt, hargs, -⟩ := switch_opt asserts n s hopt
          simp only [State.pos, hmode, hfmt, hargs]
          rfl
      | none =>
          cases hconv : Dialect.conv .snprintf c with
          | none =>
              rw [switch_default asserts n s hdigit hopt hconv]
              cases asserts <;> rfl
          | some k =>
              rw [switch_conv asserts n s hconv]
              cases k with
              | percent => rfl
              | s => exact pos_vaArg (g := Pos.string .snprintf asserts) (fun _ _ ↦ rfl) s
              | num conv =>
                  cases conv with
                  | d | i => exact pos_vaArg (g := fun p _ ↦ p.next) (pos_signed asserts n) s
                  | p => exact pos_vaArg (g := fun p _ ↦ p.next) (pos_pointer asserts n) s
                  | u =>
                      exact pos_vaArg (g := fun p _ ↦ p.next)
                        (fun s arg ↦ pos_unsigned asserts n s (by decide) false arg) s
                  | x =>
                      exact pos_vaArg (g := fun p _ ↦ p.next)
                        (fun s arg ↦ pos_unsigned asserts n s (by decide) s.capitalise arg) s
                  | capX =>
                      exact pos_vaArg (g := fun p _ ↦ p.next)
                        (fun s arg ↦ pos_unsigned asserts n s (by decide) s.capitalise arg)
                        { s with capitalise := true }

theorem map_step (mem : Mem) (s : State) :
    (step mem asserts n s).map State.pos = move .snprintf asserts mem s.pos := by
  cases hmode : s.mode with
  | scan =>
      simp only [step, move, State.pos, hmode, Mode.kind]
      split
      · rfl
      · split <;> rfl
  | directive =>
      simp only [step, hmode, Option.map_some, pos_switch]
      simp only [move, State.pos, hmode, Mode.kind]
  | width =>
      simp only [step, move, State.pos, hmode, Mode.kind]
      split <;> rfl
  | string str =>
      simp only [step, move, State.pos, hmode, Mode.kind]
      split <;> rfl
  | finished => simp only [step, move, State.pos, hmode, Mode.kind, Option.map_none]
  | fault f => simp only [step, move, State.pos, hmode, Mode.kind, Option.map_none]

end Vsnprintf

/-- Both scans stay within their format iff assertions are compiled in or the format does not
end inside a directive that `vsnprintf` comes to. -/
theorem scans_stay_within_iff (mem : Mem) (asserts : Bool) (n fmt : ℕ) (f : List UInt8)
    (args : VaList) (hfmt : CString mem fmt f) :
    (StaysWithin (Vprintf.step mem asserts) Vprintf.State.pos mem (fmt + f.length)
        (Vprintf.start fmt args) ∧
      StaysWithin (Vsnprintf.step mem asserts (Vsnprintf.enter n).1) Vsnprintf.State.pos mem
        (fmt + f.length) (Vsnprintf.start fmt args (Vsnprintf.enter n).2)) ↔
      asserts = true ∨
        ¬ (endsInDirective .snprintf false f = true ∧ Served .snprintf mem false f args) := by
  have hprintf : StaysWithin (Vprintf.step mem asserts) Vprintf.State.pos mem (fmt + f.length)
      (Vprintf.start fmt args) :=
    (staysWithin_of_map (Vprintf.map_step mem asserts) _).mpr
      ((staysWithin_move_iff hfmt args).mpr (.inl rfl))
  rw [and_iff_right hprintf,
    staysWithin_of_map (Vsnprintf.map_step asserts (Vsnprintf.enter n).1 mem)]
  refine (staysWithin_move_iff hfmt args).trans (or_iff_right ?_)
  rintro ⟨⟩

/-- `snprintf(s, 8, "%-5d", 7)` -/
theorem scans_stay_within_iff_example :
    let f := ascii ['%', '-', '5', 'd']
    let mem := rodata 16 f
    let args := slots [.word 7] (.const 0)
    (StaysWithin (Vprintf.step mem false) Vprintf.State.pos mem (16 + f.length)
        (Vprintf.start 16 args) ∧
      StaysWithin (Vsnprintf.step mem false (Vsnprintf.enter 8).1) Vsnprintf.State.pos mem
        (16 + f.length) (Vsnprintf.start 16 args (Vsnprintf.enter 8).2)) ↔
      false = true ∨
        ¬ (endsInDirective .snprintf false f = true ∧ Served .snprintf mem false f args) :=
  scans_stay_within_iff _ false 8 16 (ascii ['%', '-', '5', 'd']) _ (by decide)

/-- `snprintf(s, 8, "5%")` without assertions goes on behind its NUL. -/
theorem scan_escapes :
    let f := ascii ['5', '%']
    let mem := rodata 16 f
    let args : VaList := .const 0
    ¬ (StaysWithin (Vprintf.step mem false) Vprintf.State.pos mem (16 + f.length)
        (Vprintf.start 16 args) ∧
      StaysWithin (Vsnprintf.step mem false (Vsnprintf.enter 8).1) Vsnprintf.State.pos mem
        (16 + f.length) (Vsnprintf.start 16 args (Vsnprintf.enter 8).2)) := by
  rintro f mem args ⟨-, h⟩
  let b : Vsnprintf.Buf := ⟨1, 1, [(0, '5'.toUInt8)]⟩
  have hlit : Vsnprintf.step mem false 7 (Vsnprintf.start 16 args ⟨0, 0, []⟩) =
      some (Vsnprintf.start 17 args b) := rfl
  have hpercent : Vsnprintf.step mem false 7 (Vsnprintf.start 17 args b) =
      some { Vsnprintf.start 18 args b with mode := .directive } := rfl
  have hnul : Vsnprintf.step mem false 7 { Vsnprintf.start 18 args b with mode := .directive } =
      some (Vsnprintf.start 19 args b) := rfl
  have hle := h.inside (Vsnprintf.start 19 args b)
    (((StateTransition.reaches_of_step hlit).tail hpercent).tail hnul) trivial
  exact absurd hle (by decide)

end BaizeBoard
