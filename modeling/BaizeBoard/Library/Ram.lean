import Mathlib.Data.List.Basic
import Mathlib.Data.Nat.Notation
import Mathlib.Algebra.Group.Nat.Defs
import Mathlib.Algebra.Group.Defs
import Mathlib.Tactic.TypeStar

/-!
# Byte memory

A memory maps some addresses of `bits` bits to bytes.  A load or a store
anywhere else has no result, so a program that has a result stayed inside the
memory it was given.  As addresses end somewhere, a loop that moves a pointer
upwards and loads through it comes to an end or has no result.
-/

@[ext] structure Ram (bits : ℕ) where
  load : ℕ → Option UInt8
  load_of_le : ∀ a, 2 ^ bits ≤ a → load a = none

namespace Ram

/-- The byte that is stored for a word. -/
def lowByte {w : ℕ} (val : BitVec w) : UInt8 := UInt8.ofBitVec (val.setWidth 8)

variable {bits : ℕ}

theorem lt_of_load {m : Ram bits} {a : ℕ} {c : UInt8} (h : m.load a = some c) : a < 2 ^ bits := by
  by_contra hge
  rw [m.load_of_le a (Nat.le_of_not_lt hge)] at h
  cases h

/-- A pointer that has been loaded through is farther from the end than the next one. -/
theorem left_lt {m : Ram bits} {a : ℕ} {c : UInt8} (h : m.load a = some c) :
    2 ^ bits - (a + 1) < 2 ^ bits - a := by
  have hlt := lt_of_load h
  omega

/-- One round of a loop that begins with a load. -/
theorem match_load {β : Sort*} {m : Ram bits} {a : ℕ} {c : UInt8} (h : m.load a = some c)
    (f : m.load a = none → β) (g : ∀ c, m.load a = some c → β) :
    (match h : m.load a with
      | none => f h
      | some c => g c h) = g c h := by
  split
  · rename_i hnone
    cases h.symm.trans hnone
  · rename_i d hd
    cases h.symm.trans hd
    rfl

/-- The bytes `l` stand from `a` on. -/
def Holds (m : Ram bits) : ℕ → List UInt8 → Prop
  | _, [] => True
  | a, c :: l => m.load a = some c ∧ Holds m (a + 1) l

instance instDecidableHolds (m : Ram bits) : ∀ (l : List UInt8) (a : ℕ), Decidable (m.Holds a l)
  | [], _ => isTrue trivial
  | c :: l, a =>
      have := instDecidableHolds m l (a + 1)
      inferInstanceAs (Decidable (m.load a = some c ∧ m.Holds (a + 1) l))

/-- The string `s`, without a NUL in it, stands at `a`, and a NUL behind it. -/
def Str (m : Ram bits) (a : ℕ) (s : List UInt8) : Prop := m.Holds a (s ++ [0]) ∧ 0 ∉ s

instance (m : Ram bits) (a : ℕ) (s : List UInt8) : Decidable (m.Str a s) :=
  inferInstanceAs (Decidable (m.Holds a (s ++ [0]) ∧ 0 ∉ s))

/-- The `n` addresses from `a` on can be stored to. -/
def Mapped (m : Ram bits) (a n : ℕ) : Prop := ∀ i < n, (m.load (a + i)).isSome

instance (m : Ram bits) (a n : ℕ) : Decidable (m.Mapped a n) :=
  inferInstanceAs (Decidable (∀ i < n, (m.load (a + i)).isSome))

/-- The memory after the bytes `l` have been put at those of the addresses from
`a` on that are mapped. -/
def write (m : Ram bits) (a : ℕ) (l : List UInt8) : Ram bits where
  load i := if a ≤ i ∧ i < a + l.length then (m.load i).bind fun _ ↦ l[i - a]? else m.load i
  load_of_le i hi := by
    rw [m.load_of_le i hi, Option.bind_none, ite_self]

def store (m : Ram bits) (a : ℕ) (c : UInt8) : Option (Ram bits) :=
  if (m.load a).isSome then some (m.write a [c]) else none

/-- The memory with `bytes` from `a` on and nothing else, as far as addresses go. -/
def image (bits a : ℕ) (bytes : List UInt8) : Ram bits where
  load i := if a ≤ i ∧ i < 2 ^ bits then bytes[i - a]? else none
  load_of_le _ hi := if_neg fun h ↦ Nat.not_lt_of_le hi h.2

variable {m : Ram bits} {a b n : ℕ} {c : UInt8} {l r : List UInt8}

/-! ## What a memory holds -/

@[simp] theorem holds_nil : m.Holds a [] := trivial

@[simp] theorem holds_cons : m.Holds a (c :: l) ↔ m.load a = some c ∧ m.Holds (a + 1) l := Iff.rfl

theorem holds_append : m.Holds a (l ++ r) ↔ m.Holds a l ∧ m.Holds (a + l.length) r := by
  induction l generalizing a with
  | nil => simp
  | cons c l ih =>
      have hlength : a + 1 + l.length = a + (c :: l).length := by
        rw [List.length_cons]
        omega
      rw [List.cons_append, holds_cons, holds_cons, ih, hlength, and_assoc]

theorem holds_iff : m.Holds a l ↔ ∀ i < l.length, m.load (a + i) = l[i]? := by
  induction l generalizing a with
  | nil => simp
  | cons c l ih =>
      rw [holds_cons, ih]
      constructor
      · rintro ⟨hc, hl⟩ i hi
        cases i with
        | zero => exact hc
        | succ i =>
            have hget := hl i (by simpa using hi)
            rw [List.getElem?_cons_succ, ← hget]
            congr 1
            omega
      · intro h
        refine ⟨h 0 (by simp), fun i hi ↦ ?_⟩
        have hget := h (i + 1) (by simpa using hi)
        rw [List.getElem?_cons_succ] at hget
        rw [← hget]
        congr 1
        omega

theorem Holds.get (h : m.Holds a l) {i : ℕ} (hi : i < l.length) : m.load (a + i) = some l[i] := by
  rw [holds_iff.mp h i hi, List.getElem?_eq_getElem hi]

theorem Holds.mapped (h : m.Holds a l) : m.Mapped a l.length := by
  intro i hi
  rw [h.get hi]
  rfl

/-- What a memory holds depends only on the addresses it stands at. -/
theorem Holds.congr {m' : Ram bits} (h : m.Holds a l)
    (hm : ∀ i < l.length, m'.load (a + i) = m.load (a + i)) : m'.Holds a l := by
  rw [holds_iff] at h ⊢
  intro i hi
  rw [hm i hi, h i hi]

theorem Holds.eq (hl : m.Holds a l) (hr : m.Holds a r) (h : l.length = r.length) : l = r := by
  apply List.ext_getElem h
  intro i hi hi'
  exact Option.some.inj ((hl.get hi).symm.trans (hr.get hi'))

theorem holds_image (h : a + l.length ≤ 2 ^ bits) : (image bits a l).Holds a l := by
  rw [holds_iff]
  intro i hi
  exact (if_pos ⟨Nat.le_add_right a i, by omega⟩).trans (by rw [Nat.add_sub_cancel_left])

theorem exists_holds (h : m.Mapped a n) : ∃ l, l.length = n ∧ m.Holds a l := by
  induction n generalizing a with
  | zero => exact ⟨[], rfl, trivial⟩
  | succ n ih =>
      obtain ⟨c, hc⟩ := Option.isSome_iff_exists.mp (h 0 (Nat.zero_lt_succ n))
      obtain ⟨l, hlength, hl⟩ := ih (a := a + 1) fun i hi ↦ by
        have hmapped := h (i + 1) (by omega)
        rwa [show a + (i + 1) = a + 1 + i by omega] at hmapped
      exact ⟨c :: l, by rw [List.length_cons, hlength], hc, hl⟩

theorem Mapped.mono (h : m.Mapped a n) {k : ℕ} (hk : k ≤ n) : m.Mapped a k :=
  fun i hi ↦ h i (Nat.lt_of_lt_of_le hi hk)

theorem Mapped.right {k : ℕ} (h : m.Mapped a (k + n)) : m.Mapped (a + k) n := by
  intro i hi
  rw [Nat.add_assoc]
  exact h (k + i) (by omega)

theorem Mapped.lt (h : m.Mapped a n) {i : ℕ} (hi : i < n) : a + i < 2 ^ bits := by
  obtain ⟨c, hc⟩ := Option.isSome_iff_exists.mp (h i hi)
  exact lt_of_load hc

/-! ## Writing -/

theorem load_write_of_lt (h : b < a) : (m.write a l).load b = m.load b := if_neg (by omega)

theorem load_write_of_ge (h : a + l.length ≤ b) : (m.write a l).load b = m.load b :=
  if_neg (by omega)

@[simp] theorem isSome_load_write : ((m.write a l).load b).isSome = (m.load b).isSome := by
  by_cases h : a ≤ b ∧ b < a + l.length
  · have hlt : b - a < l.length := by omega
    change (if a ≤ b ∧ b < a + l.length then _ else _ : Option UInt8).isSome = _
    rw [if_pos h, List.getElem?_eq_getElem hlt]
    cases m.load b <;> rfl
  · exact congrArg Option.isSome (if_neg h)

theorem mapped_write {k : ℕ} : (m.write a l).Mapped b k ↔ m.Mapped b k := by
  simp [Mapped]

@[simp] theorem write_nil : m.write a [] = m := by
  ext1
  funext i
  apply if_neg
  rw [List.length_nil]
  omega

theorem write_append : (m.write a l).write (a + l.length) r = m.write a (l ++ r) := by
  ext1
  funext i
  simp only [write, List.length_append]
  rcases Nat.lt_or_ge i a with hlt | hge
  · rw [if_neg (by omega), if_neg (by omega), if_neg (by omega)]
  rcases Nat.lt_or_ge i (a + l.length) with hl | hl
  · rw [if_neg (by omega), if_pos ⟨hge, hl⟩, if_pos ⟨hge, by omega⟩,
      List.getElem?_append_left (by omega)]
  rcases Nat.lt_or_ge i (a + l.length + r.length) with hr | hr
  · rw [if_pos ⟨hl, hr⟩, if_neg (by omega), if_pos ⟨hge, by omega⟩,
      List.getElem?_append_right (by omega), Nat.sub_add_eq]
  · rw [if_neg (by omega), if_neg (by omega), if_neg (by omega)]

theorem write_cons : (m.write a [c]).write (a + 1) l = m.write a (c :: l) := write_append

theorem write_comm (hdisj : a + l.length ≤ b ∨ b + r.length ≤ a) :
    (m.write a l).write b r = (m.write b r).write a l := by
  ext1
  funext i
  simp only [write]
  by_cases ha : a ≤ i ∧ i < a + l.length
  · rw [if_neg (by omega)]
    simp only [if_pos ha]
    rw [if_neg (by omega)]
  · simp only [if_neg ha]

theorem load_write_congr {m' : Ram bits} (h : m.load b = m'.load b) :
    (m.write a l).load b = (m'.write a l).load b := by
  simp only [write, h]

theorem load_write (h : m.Mapped a l.length) {i : ℕ} (hi : i < l.length) :
    (m.write a l).load (a + i) = l[i]? := by
  obtain ⟨c, hc⟩ := Option.isSome_iff_exists.mp (h i hi)
  change (if a ≤ a + i ∧ a + i < a + l.length then _ else _) = _
  rw [if_pos (by omega), hc, Nat.add_sub_cancel_left]
  rfl

theorem holds_write (h : m.Mapped a l.length) : (m.write a l).Holds a l :=
  holds_iff.mpr fun _ hi ↦ load_write h hi

/-- Bytes that stand apart from the place written to stay. -/
theorem Holds.write (h : m.Holds a l) (hdisj : a + l.length ≤ b ∨ b + r.length ≤ a) :
    (m.write b r).Holds a l := by
  apply h.congr
  intro i hi
  exact if_neg (by omega)

/-- Writing what stands there changes nothing. -/
theorem Holds.write_self (h : m.Holds a l) : m.write a l = m := by
  ext1
  funext i
  by_cases hi : a ≤ i ∧ i < a + l.length
  · obtain ⟨j, rfl⟩ := Nat.exists_eq_add_of_le hi.1
    have hj : j < l.length := by omega
    rw [load_write h.mapped hj, holds_iff.mp h j hj]
  · exact if_neg hi

theorem store_eq (h : (m.load a).isSome) (c : UInt8) : m.store a c = some (m.write a [c]) :=
  if_pos h

/-- Storing behind what has just been written. -/
theorem store_write (h : m.Mapped a (l.length + 1)) (c : UInt8) :
    (m.write a l).store (a + l.length) c = some (m.write a (l ++ [c])) := by
  rw [store_eq (by rw [isSome_load_write]; exact h _ (Nat.lt_succ_self _)), ← write_append]

/-! ## Strings -/

theorem Str.holds {s : List UInt8} (h : m.Str a s) : m.Holds a s := (holds_append.mp h.1).1

theorem Str.nul {s : List UInt8} (h : m.Str a s) : m.load (a + s.length) = some 0 :=
  (holds_append.mp h.1).2.1

/-- The first character of a string, or the NUL of an empty one. -/
theorem Str.load {s : List UInt8} (h : m.Str a s) : m.load a = some (s.headD 0) := by
  cases s with
  | nil => exact h.1.1
  | cons c s => exact h.1.1

theorem Str.append {s t : List UInt8} (h : m.Str a (s ++ t)) : m.Str (a + s.length) t := by
  obtain ⟨hst, hnul⟩ := h
  rw [List.append_assoc] at hst
  exact ⟨(holds_append.mp hst).2, fun ht ↦ hnul (List.mem_append_right s ht)⟩

theorem Str.head_ne {s : List UInt8} (h : m.Str a (c :: s)) : c ≠ 0 := by
  rintro rfl
  exact h.2 List.mem_cons_self

theorem Str.tail {s : List UInt8} (h : m.Str a (c :: s)) : m.Str (a + 1) s :=
  h.append (s := [c])

theorem Str.congr {m' : Ram bits} {s : List UInt8} (h : m.Str a s)
    (hm : ∀ i ≤ s.length, m'.load (a + i) = m.load (a + i)) : m'.Str a s := by
  refine ⟨h.1.congr fun i hi ↦ hm i ?_, h.2⟩
  rw [List.length_append, List.length_singleton] at hi
  omega

theorem Str.write {s : List UInt8} (h : m.Str a s)
    (hdisj : a + s.length < b ∨ b + r.length ≤ a) : (m.write b r).Str a s := by
  apply h.congr
  intro i hi
  exact if_neg (by omega)

theorem Holds.append_str {s : List UInt8} (h : m.Holds a l) (hl : 0 ∉ l)
    (hs : m.Str (a + l.length) s) : m.Str a (l ++ s) := by
  refine ⟨?_, by simpa [hl] using hs.2⟩
  rw [List.append_assoc]
  exact holds_append.mpr ⟨h, hs.1⟩

/-- Where a NUL follows, there is a string: it ends at the first NUL. -/
theorem Holds.exists_str (h : m.Holds a (l ++ [0])) :
    ∃ s, m.Str a s ∧ ∀ c ∈ s.head?, c ∈ l.head? := by
  induction l generalizing a with
  | nil => exact ⟨[], ⟨h, by simp⟩, by simp⟩
  | cons c l ih =>
      by_cases hc : c = 0
      · exact ⟨[], ⟨⟨hc ▸ h.1, trivial⟩, by simp⟩, by simp⟩
      · obtain ⟨s, hs, -⟩ := ih h.2
        refine ⟨c :: s, ⟨⟨h.1, hs.1⟩, ?_⟩, by simp⟩
        simpa [Ne.symm hc] using hs.2

/-! ## Strings of which only the first bytes count -/

/-- The first `n` bytes from `a` on, as far as there is no NUL among them, are `s`. -/
def Field (m : Ram bits) : ℕ → ℕ → List UInt8 → Prop
  | _, 0, s => s = []
  | a, _ + 1, [] => m.load a = some 0
  | a, n + 1, c :: s => m.load a = some c ∧ c ≠ 0 ∧ Field m (a + 1) n s

instance instDecidableField (m : Ram bits) : ∀ (n a : ℕ) (s : List UInt8), Decidable (m.Field a n s)
  | 0, _, s => inferInstanceAs (Decidable (s = []))
  | _ + 1, a, [] => inferInstanceAs (Decidable (m.load a = some 0))
  | n + 1, a, c :: s =>
      have := instDecidableField m n (a + 1) s
      inferInstanceAs (Decidable (m.load a = some c ∧ c ≠ 0 ∧ m.Field (a + 1) n s))

variable {s : List UInt8}

theorem field_zero : m.Field a 0 s ↔ s = [] := by rw [Field]

theorem Field.load (h : m.Field a (n + 1) s) : m.load a = some (s.headD 0) := by
  cases s with
  | nil => exact h
  | cons c s => exact h.1

theorem Field.tail (h : m.Field a (n + 1) (c :: s)) : m.Field (a + 1) n s := h.2.2

theorem Field.nul_not_mem (h : m.Field a n s) : 0 ∉ s := by
  induction s generalizing a n with
  | nil => exact List.not_mem_nil
  | cons c s ih =>
      cases n with
      | zero => cases h
      | succ n => simpa [Ne.symm h.2.1] using ih h.tail

theorem Field.length_le (h : m.Field a n s) : s.length ≤ n := by
  induction s generalizing a n with
  | nil => exact Nat.zero_le n
  | cons c s ih =>
      cases n with
      | zero => cases h
      | succ n => exact Nat.succ_le_succ (ih h.tail)

theorem Field.holds (h : m.Field a n s) : m.Holds a s := by
  induction s generalizing a n with
  | nil => trivial
  | cons c s ih =>
      cases n with
      | zero => cases h
      | succ n => exact ⟨h.1, ih h.tail⟩

theorem Field.nul (h : m.Field a n s) (hlt : s.length < n) : m.load (a + s.length) = some 0 := by
  obtain ⟨n, rfl⟩ := Nat.exists_eq_succ_of_ne_zero (Nat.ne_zero_of_lt hlt)
  induction s generalizing a n with
  | nil => exact h.load
  | cons c s ih =>
      obtain ⟨k, rfl⟩ := Nat.exists_eq_succ_of_ne_zero
        (Nat.ne_zero_of_lt (Nat.lt_of_succ_lt_succ hlt))
      have hnul := ih k h.tail (Nat.lt_of_succ_lt_succ hlt)
      rwa [Nat.add_assoc, Nat.add_comm 1] at hnul

theorem Str.field (h : m.Str a s) : m.Field a n (s.take n) := by
  induction s generalizing a n with
  | nil =>
      cases n with
      | zero => rfl
      | succ n => exact h.load
  | cons c s ih =>
      cases n with
      | zero => rfl
      | succ n => exact ⟨h.load, h.head_ne, ih h.tail⟩

end Ram
