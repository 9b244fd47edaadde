import BaizeBoard.Library.Occurrence
import BaizeBoard.Library.Ram

/-!
# `strchr`, `strrchr`, `memchr`, `memrchr` and `strnlen`

The functions that look for a byte.  What is looked for is an `int` of which the
lowest byte counts; no pointer found is `none`.
-/

namespace BaizeBoard

variable {bits : ℕ}

namespace Strchr

/-- `for (;; ++p)` -/
def find (m : Ram bits) (p : ℕ) (c : UInt8) : Option (Option ℕ) :=
  match h : m.load p with
  | none => none
  | some d =>
      if d = c then some (some p)
      else if d = 0 then some none
      else find m (p + 1) c
termination_by 2 ^ bits - p
decreasing_by exact Ram.left_lt h

/-- `for (save = NULL;; ++p)`, with what `save` is by then. -/
def findLast (m : Ram bits) (p : ℕ) (c : UInt8) (save : Option ℕ) : Option (Option ℕ) :=
  match h : m.load p with
  | none => none
  | some d =>
      let save := if d = c then some p else save
      if d = 0 then some save else findLast m (p + 1) c save
termination_by 2 ^ bits - p
decreasing_by exact Ram.left_lt h

/-- `while (len--)`, upwards. -/
def searchUp (m : Ram bits) (s : ℕ) (c : UInt8) : ℕ → Option (Option ℕ)
  | 0 => some none
  | len + 1 => do
      let d ← m.load s
      if d = c then return some s
      searchUp m (s + 1) c len

/-- `while (len--)`, downwards. -/
def searchDown (m : Ram bits) (s : ℕ) (c : UInt8) : ℕ → Option (Option ℕ)
  | 0 => some none
  | len + 1 => do
      let d ← m.load s
      if d = c then return some s
      searchDown m (s - 1) c len

/-- `for (len = 0; len < maxlen; len++, s++)`, when `maxlen - len` is the last argument. -/
def count (m : Ram bits) (s len : ℕ) : ℕ → Option ℕ
  | 0 => some len
  | n + 1 => do
      let c ← m.load s
      if c = 0 then return len
      count m (s + 1) (len + 1) n

end Strchr

/-- `c = ch;` keeps the low byte, and so does `(unsigned char)c` below. -/
def strchr (m : Ram bits) (p : ℕ) (ch : BitVec 32) : Option (Option ℕ) :=
  Strchr.find m p (Ram.lowByte ch)

def strrchr (m : Ram bits) (p : ℕ) (ch : BitVec 32) : Option (Option ℕ) :=
  Strchr.findLast m p (Ram.lowByte ch) none

def memchr (m : Ram bits) (src : ℕ) (c : BitVec 32) (len : ℕ) : Option (Option ℕ) :=
  Strchr.searchUp m src (Ram.lowByte c) len

/-- Without any `len` the pointer is below `src`, and not used. -/
def memrchr (m : Ram bits) (src : ℕ) (c : BitVec 32) (len : ℕ) : Option (Option ℕ) :=
  Strchr.searchDown m (src + (len - 1)) (Ram.lowByte c) len

def strnlen (m : Ram bits) (s maxlen : ℕ) : Option ℕ := Strchr.count m s 0 maxlen

namespace Strchr

open Occurrence

variable {m : Ram bits} {p s n : ℕ} {c d : UInt8} {l t : List UInt8}

/-! ## The loops -/

theorem find_of_load (h : m.load p = some d) :
    find m p c =
      if d = c then some (some p) else if d = 0 then some none else find m (p + 1) c := by
  rw [find]
  exact Ram.match_load h _ _

theorem findLast_of_load (h : m.load p = some d) {save : Option ℕ} :
    findLast m p c save =
      let save := if d = c then some p else save
      if d = 0 then some save else findLast m (p + 1) c save := by
  rw [findLast]
  exact Ram.match_load h _ _

theorem searchUp_of_load (h : m.load s = some d) :
    searchUp m s c (n + 1) = if d = c then some (some s) else searchUp m (s + 1) c n := by
  rw [searchUp, h]
  rfl

theorem find_eq (h : m.Str p t) : find m p c = some (first c p (t ++ [0])) := by
  induction t generalizing p with
  | nil =>
      rw [find_of_load h.load]
      by_cases hc : (0 : UInt8) = c <;> simp [first, hc]
  | cons d t ih =>
      rw [find_of_load h.load, List.headD_cons, if_neg h.head_ne, ih h.tail]
      by_cases hd : d = c <;> simp [first, hd]

theorem findLast_eq (h : m.Str p t) (save : Option ℕ) :
    findLast m p c save = some ((last c p (t ++ [0])).or save) := by
  induction t generalizing p save with
  | nil =>
      rw [findLast_of_load h.load]
      by_cases hc : (0 : UInt8) = c <;> simp [last, hc]
  | cons d t ih =>
      rw [findLast_of_load h.load]
      simp only [List.headD_cons, h.head_ne, if_false, ih h.tail]
      by_cases hd : d = c <;> simp [last, hd]

theorem searchUp_eq (h : m.Holds s l) : searchUp m s c l.length = some (first c s l) := by
  induction l generalizing s with
  | nil => rfl
  | cons d l ih =>
      rw [List.length_cons, searchUp_of_load h.1, ih h.2]
      by_cases hd : d = c <;> simp [first, hd]

/-- Nothing behind the place where the byte is found need be there. -/
theorem searchUp_stop (h : m.Holds s (l ++ [c])) (hc : c ∉ l) (hn : l.length < n) :
    searchUp m s c n = some (some (s + l.length)) := by
  obtain ⟨n, rfl⟩ := Nat.exists_eq_succ_of_ne_zero (Nat.ne_zero_of_lt hn)
  induction l generalizing s n with
  | nil => simp [searchUp_of_load h.1]
  | cons d l ih =>
      have hlt : l.length < n := by simpa using hn
      obtain ⟨k, rfl⟩ := Nat.exists_eq_succ_of_ne_zero (Nat.ne_zero_of_lt hlt)
      have hd : d ≠ c := by
        rintro rfl
        simp at hc
      have hrest := ih h.2 (fun hmem ↦ hc (List.mem_cons_of_mem d hmem)) k hlt
      rw [searchUp_of_load h.1, if_neg hd, hrest, List.length_cons, Nat.add_assoc, Nat.add_comm 1]

theorem searchDown_eq (h : m.Holds s l) :
    searchDown m (s + (l.length - 1)) c l.length = some (last c s l) := by
  induction l using List.reverseRecOn with
  | nil => rfl
  | append_singleton l d ih =>
      obtain ⟨hl, hd, -⟩ := Ram.holds_append.mp h
      rw [List.length_append, List.length_singleton, Nat.add_sub_cancel, searchDown, hd,
        last_append]
      by_cases hdc : d = c
      · simp [hdc]
      · cases l with
        | nil => simp [hdc, searchDown, last]
        | cons e l => simpa [hdc, ← Nat.add_assoc] using ih hl

theorem count_eq (h : m.Field s n t) (len : ℕ) : count m s len n = some (len + t.length) := by
  induction n generalizing s len t with
  | zero => simp [Ram.field_zero.mp h, count]
  | succ n ih =>
      rw [count, h.load]
      cases t with
      | nil => simp
      | cons c t => simp [h.2.1, ih h.tail, Nat.add_assoc, Nat.add_comm 1]

end Strchr

open Strchr

/-- `strchr` finds the first and `strrchr` the last place of a byte in a string, of which the
NUL is a part.  They are `memchr` and `memrchr` of all its bytes. -/
theorem strchr_first_last (m : Ram bits) (p : ℕ) (t : List UInt8) (ch : BitVec 32)
    (h : m.Str p t) :
    ∃ chr rchr, strchr m p ch = some chr ∧ memchr m p ch (t.length + 1) = some chr ∧
      strrchr m p ch = some rchr ∧ memrchr m p ch (t.length + 1) = some rchr ∧
      (chr = none ↔ Ram.lowByte ch ∉ t ++ [0]) ∧ (rchr = none ↔ Ram.lowByte ch ∉ t ++ [0]) ∧
      (∀ q, chr = some q ↔ ∃ pre post, t ++ [0] = pre ++ Ram.lowByte ch :: post ∧
        Ram.lowByte ch ∉ pre ∧ q = p + pre.length) ∧
      ∀ q, rchr = some q ↔ ∃ pre post, t ++ [0] = pre ++ Ram.lowByte ch :: post ∧
        Ram.lowByte ch ∉ post ∧ q = p + pre.length := by
  have hup := searchUp_eq (c := Ram.lowByte ch) h.1
  have hdown := searchDown_eq (c := Ram.lowByte ch) h.1
  have hlast := findLast_eq (c := Ram.lowByte ch) h none
  rw [Option.or_none] at hlast
  rw [List.length_append, List.length_singleton] at hup hdown
  exact ⟨_, _, find_eq h, hup, hlast, hdown, Occurrence.first_eq_none_iff,
    Occurrence.last_eq_none_iff, fun q ↦ Occurrence.first_eq_some_iff,
    fun q ↦ Occurrence.last_eq_some_iff⟩

/-- The `b`s of `"abb"`, asked for as an `int` with other bits above. -/
theorem strchr_first_last_example :
    let m := Ram.image 64 0x100 [0x61, 0x62, 0x62, 0]
    let t : List UInt8 := [0x61, 0x62, 0x62]
    let ch : BitVec 32 := 0x162
    ∃ chr rchr, strchr m 0x100 ch = some chr ∧ memchr m 0x100 ch (t.length + 1) = some chr ∧
      strrchr m 0x100 ch = some rchr ∧ memrchr m 0x100 ch (t.length + 1) = some rchr ∧
      (chr = none ↔ Ram.lowByte ch ∉ t ++ [0]) ∧ (rchr = none ↔ Ram.lowByte ch ∉ t ++ [0]) ∧
      (∀ q, chr = some q ↔ ∃ pre post, t ++ [0] = pre ++ Ram.lowByte ch :: post ∧
        Ram.lowByte ch ∉ pre ∧ q = 0x100 + pre.length) ∧
      ∀ q, rchr = some q ↔ ∃ pre post, t ++ [0] = pre ++ Ram.lowByte ch :: post ∧
        Ram.lowByte ch ∉ post ∧ q = 0x100 + pre.length :=
  strchr_first_last _ 0x100 [0x61, 0x62, 0x62] 0x162 (by decide)

/-- `strnlen` gives the length of what a string shows in `maxlen` bytes, and `memchr` for a
NUL in as many bytes finds its end exactly when `strnlen` has met it. -/
theorem strnlen_meets_nul (m : Ram bits) (s maxlen : ℕ) (t : List UInt8)
    (h : m.Field s maxlen t) :
    strnlen m s maxlen = some t.length ∧
      memchr m s 0 maxlen = some (if t.length < maxlen then some (s + t.length) else none) := by
  constructor
  · rw [strnlen, count_eq h, Nat.zero_add]
  · have hzero : Ram.lowByte (0 : BitVec 32) = 0 := by decide
    rw [memchr, hzero]
    by_cases hlt : t.length < maxlen
    · have hnul : m.Holds s (t ++ [0]) := Ram.holds_append.mpr ⟨h.holds, h.nul hlt, trivial⟩
      rw [if_pos hlt, searchUp_stop hnul h.nul_not_mem hlt]
    · have hlength : t.length = maxlen := Nat.le_antisymm h.length_le (Nat.le_of_not_lt hlt)
      rw [if_neg hlt, ← hlength, searchUp_eq h.holds,
        Occurrence.first_eq_none_iff.mpr h.nul_not_mem]

/-- Two bytes of `"ab"`, whose NUL is not among them. -/
theorem strnlen_meets_nul_example :
    let m := Ram.image 64 0x100 [0x61, 0x62, 0]
    let t : List UInt8 := [0x61, 0x62]
    strnlen m 0x100 2 = some t.length ∧
      memchr m 0x100 0 2 = some (if t.length < 2 then some (0x100 + t.length) else none) :=
  strnlen_meets_nul _ 0x100 2 [0x61, 0x62] (by decide)

end BaizeBoard
