import BaizeBoard.Libc.VsnprintfRun
import Mathlib.Data.List.GetD

/-!
# The truncation contract of `vsnprintf`

`CHECK_AND_PUT_CHAR` stores a character only while `chars_printed < n`, so the
cursor `s` stands at `min chars_printed n`.  That one relation turns the stores
of a whole run into the stores of a prefix of its text.
-/

namespace BaizeBoard.Vsnprintf

/-- The stores of `bytes`, one behind the other from `a` on. -/
def cells (a : ℕ) : List UInt8 → List (ℕ × UInt8)
  | [] => []
  | c :: bytes => (a, c) :: cells (a + 1) bytes

theorem cells_append (a : ℕ) (s t : List UInt8) :
    cells a (s ++ t) = cells a s ++ cells (a + s.length) t := by
  induction s generalizing a with
  | nil => rfl
  | cons c s ih =>
      simp only [List.cons_append, cells, ih, List.length_cons]
      rw [add_assoc, add_comm 1]

theorem cells_lt {a : ℕ} {bytes : List UInt8} {w : ℕ × UInt8} (h : w ∈ cells a bytes) :
    w.1 < a + bytes.length := by
  induction bytes generalizing a with
  | nil => cases h
  | cons c bytes ih =>
      rcases List.mem_cons.mp h with rfl | h
      · simp
      · have hlt := ih h
        simp only [List.length_cons]
        omega

def contents (before : ℕ → UInt8) (writes : List (ℕ × UInt8)) : ℕ → UInt8 :=
  writes.foldl (fun buf w ↦ Function.update buf w.1 w.2) before

theorem contents_cells (before : ℕ → UInt8) (a : ℕ) (bytes : List UInt8) (i : ℕ) :
    contents before (cells a bytes) i =
      if a ≤ i then bytes.getD (i - a) (before i) else before i := by
  induction bytes generalizing before a with
  | nil => simp [cells, contents]
  | cons c bytes ih =>
      refine (ih (Function.update before a c) (a + 1)).trans ?_
      rcases lt_trichotomy i a with hlt | rfl | hgt
      · rw [if_neg (by omega), if_neg (by omega), Function.update_of_ne (by omega)]
      · simp
      · have hnext : i - a = (i - (a + 1)) + 1 := by omega
        rw [if_pos (by omega), if_pos (by omega), Function.update_of_ne (by omega), hnext]
        rfl

def Holds (buf : ℕ → UInt8) (bytes : List UInt8) : Prop :=
  ∀ i c, bytes[i]? = some c → buf i = c

theorem holds_cells (before : ℕ → UInt8) (bytes : List UInt8) :
    Holds (contents before (cells 0 bytes)) bytes := by
  intro i c hi
  rw [contents_cells, if_pos (Nat.zero_le i), Nat.sub_zero, List.getD_eq_getElem?_getD, hi]
  rfl

/-! ## The invariant of the cursor -/

/-- The cursor has moved as often as there was room for the character. -/
def Buf.Bounded (n : ℕ) (b : Buf) : Prop := b.s = min b.charsPrinted n

theorem bounded_checkAndPutChar {n : ℕ} {b : Buf} (h : b.Bounded n) (c : UInt8) :
    (checkAndPutChar n b c).Bounded n := by
  unfold Buf.Bounded at h ⊢
  unfold checkAndPutChar
  split
  · simp only [Buf.store]
    omega
  · simp only
    omega

theorem writes_checkAndPutChar (n : ℕ) (b : Buf) (c : UInt8) :
    (checkAndPutChar n b c).writes = b.writes ++ cells b.s ([c].take (n - b.charsPrinted)) := by
  unfold checkAndPutChar
  split
  · rw [List.take_of_length_le (by simp; omega)]
    rfl
  · have hfull : n - b.charsPrinted = 0 := by omega
    simp [cells, hfull]

theorem charsPrinted_checkAndPutChar (n : ℕ) (b : Buf) (c : UInt8) :
    (checkAndPutChar n b c).charsPrinted = b.charsPrinted + 1 := by
  unfold checkAndPutChar
  split <;> rfl

theorem charsPrinted_putAll (n : ℕ) (b : Buf) (text : List UInt8) :
    (b.putAll n text).charsPrinted = b.charsPrinted + text.length := by
  induction text generalizing b with
  | nil => rfl
  | cons c text ih =>
      rw [Buf.putAll_cons, ih, charsPrinted_checkAndPutChar, List.length_cons]
      omega

theorem bounded_putAll {n : ℕ} {b : Buf} (h : b.Bounded n) (text : List UInt8) :
    (b.putAll n text).Bounded n := by
  induction text generalizing b with
  | nil => exact h
  | cons c text ih => exact ih (bounded_checkAndPutChar h c)

theorem writes_putAll {n : ℕ} {b : Buf} (h : b.Bounded n) (text : List UInt8) :
    (b.putAll n text).writes =
      b.writes ++ cells b.s (text.take (n - b.charsPrinted)) := by
  induction text generalizing b with
  | nil => simp [cells]
  | cons c text ih =>
      have hb := bounded_checkAndPutChar h c
      rw [Buf.putAll_cons, ih hb, writes_checkAndPutChar, charsPrinted_checkAndPutChar,
        List.append_assoc]
      unfold Buf.Bounded at h hb
      rw [charsPrinted_checkAndPutChar] at hb
      congr 1
      by_cases hroom : b.charsPrinted < n
      · have hroom' : n - b.charsPrinted = (n - (b.charsPrinted + 1)) + 1 := by omega
        have hcursor : min (b.charsPrinted + 1) n = b.s + 1 := by omega
        rw [hb, List.take_of_length_le (by simp; omega), hroom', List.take_succ_cons, hcursor]
        rfl
      · have hfull : n - b.charsPrinted = 0 := by omega
        have hfull' : n - (b.charsPrinted + 1) = 0 := by omega
        rw [hfull, hfull']
        rfl

/-! ## The whole call -/

theorem writes_leave (n : ℕ) (text : List UInt8) :
    (leave (enter n).1 ((enter n).2.putAll (enter n).1 text)).writes =
      if n = 0 then [] else cells 0 (text.take (n - 1) ++ [0]) := by
  match n with
  | 0 =>
      have hfull := writes_putAll (n := 0) (b := ⟨0, 0, []⟩) rfl text
      simpa [cells, enter, leave] using hfull
  | 1 =>
      have hfull := writes_putAll (n := 0) (b := Buf.store ⟨0, 0, []⟩ 0) rfl text
      simpa [cells, enter, leave, Buf.store] using hfull
  | n + 2 =>
      have hroom := writes_putAll (n := n + 1) (b := ⟨0, 0, []⟩) rfl text
      have hcursor := bounded_putAll (n := n + 1) (b := ⟨0, 0, []⟩) rfl text
      unfold Buf.Bounded at hcursor
      rw [charsPrinted_putAll] at hcursor
      simp only [enter, leave, Nat.zero_lt_succ, if_true, Buf.store, hroom, hcursor]
      rw [if_neg (by omega), cells_append, List.length_take,
        show n + 2 - 1 = n + 1 by omega, min_comm (n + 1)]
      simp [cells]

theorem charsPrinted_enter (n : ℕ) : (enter n).2.charsPrinted = 0 := by
  match n with
  | 0 => rfl
  | 1 => rfl
  | n + 2 => rfl

theorem Buf.result_eq {b : Buf} (h : b.charsPrinted < 2 ^ 31) : b.result = b.charsPrinted := by
  unfold Buf.result
  apply Int.bmod_eq_of_le_mul_two
  · push_cast
    omega
  · push_cast
    omega

theorem result_enter (n : ℕ) {text : List UInt8} (hlen : text.length < 2 ^ 31) :
    ((enter n).2.putAll (enter n).1 text).result = text.length := by
  have hcount : ((enter n).2.putAll (enter n).1 text).charsPrinted = text.length := by
    rw [charsPrinted_putAll, charsPrinted_enter, Nat.zero_add]
  rw [Buf.result_eq (hcount ▸ hlen), hcount]

theorem writes_lt {n : ℕ} {text : List UInt8} {w : ℕ × UInt8}
    (h : w ∈ if n = 0 then [] else cells 0 (text.take (n - 1) ++ [0])) : w.1 < n := by
  split at h
  · cases h
  · have hlt := cells_lt h
    simp only [List.length_append, List.length_take, List.length_singleton] at hlt
    omega

/-- The whole text is in the buffer exactly when there is room for it and its
terminator; a byte behind the buffer keeps what it held. -/
theorem holds_all_iff (n : ℕ) (text : List UInt8) :
    text.length < n ↔ ∀ before, Holds
      (contents before (if n = 0 then [] else cells 0 (text.take (n - 1) ++ [0])))
      (text ++ [0]) := by
  constructor
  · intro hlt before
    rw [if_neg (by omega), List.take_of_length_le (by omega)]
    exact holds_cells before (text ++ [0])
  · intro hall
    by_contra hge
    -- The place of the terminator is outside the buffer, so it still holds a 1.
    have hlast := hall (fun _ ↦ 1) text.length 0 (by simp)
    split at hlast
    · exact absurd hlast (by decide : (1 : UInt8) ≠ 0)
    · rw [contents_cells, if_pos (Nat.zero_le _), List.getD_eq_default] at hlast
      · exact absurd hlast (by decide : (1 : UInt8) ≠ 0)
      · simp only [List.length_append, List.length_take, List.length_singleton]
        omega

/-- For every buffer size `vsnprintf` returns the length of the whole text, and
stores as much of it as fits in front of a terminator.  Where a width takes
`padn` over the bounds of `int`, the text is the one it wraps to. -/
theorem vsnprintf_truncates (mem : Mem) (asserts : Bool) (fmt : ℕ) (f : List UInt8)
    (args : List Arg) (fields : List Field) (hfmt : CString mem fmt f)
    (hdoc : (parse .snprintf f).Documented) (hvalid : ∀ a ∈ args, a.Valid mem)
    (hmatch : (parse .snprintf f).fields args = some fields)
    (hlen : (fields.flatMap Field.stored).length < 2 ^ 31) (beyond : VaList) (n : ℕ) :
    let text := fields.flatMap Field.stored
    ∃ writes, Returns mem asserts n fmt (slots args beyond) text.length writes ∧
      (∀ w ∈ writes, w.1 < n) ∧ (n = 0 → writes = []) ∧
      (0 < n → ∀ before, Holds (contents before writes) (text.take (n - 1) ++ [0])) ∧
      ((text.length : ℤ) < n ↔ ∀ before, Holds (contents before writes) (text ++ [0])) := by
  intro text
  have hrun := returns_fields asserts hfmt hdoc hvalid hmatch beyond n
  simp only [writes_leave, result_enter n hlen] at hrun
  refine ⟨_, hrun, fun w hw ↦ writes_lt hw, fun hn ↦ if_pos hn, ?_, ?_⟩
  · intro hn before
    rw [if_neg (by omega)]
    exact holds_cells before _
  · rw [Nat.cast_lt]
    exact holds_all_iff n text

/-- `snprintf(s, 4, "%-4x|", 10)` stores `a` and two blanks of its five characters. -/
theorem vsnprintf_truncates_example :
    let mem := rodata 16 (ascii ['%', '-', '4', 'x', '|'])
    let text := [Field.number [.minus, .width (ascii ['4'])] .x 10, .lit '|'.toUInt8].flatMap
      Field.stored
    ∃ writes, Returns mem true 4 16 (slots [.word 10] (.const 0)) text.length writes ∧
      (∀ w ∈ writes, w.1 < 4) ∧ (4 = 0 → writes = []) ∧
      (0 < 4 → ∀ before, Holds (contents before writes) (text.take (4 - 1) ++ [0])) ∧
      ((text.length : ℤ) < (4 : ℕ) ↔ ∀ before, Holds (contents before writes) (text ++ [0])) :=
  vsnprintf_truncates _ true 16 (ascii ['%', '-', '4', 'x', '|']) [.word 10] _ (by decide)
    (by decide) (by simp [Arg.Valid]) rfl (by decide) (.const 0) 4

end BaizeBoard.Vsnprintf
