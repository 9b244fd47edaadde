import BaizeBoard.Libc.VprintfRun
import BaizeBoard.Library.Ram

/-!
# `putchar` and `puts`

`console_putc` is a weak function that a platform replaces; it may refuse a
character.  `printf` goes on after that, `puts` does not.  A plain `char` is
unsigned here, as in the procedure call standards of both architectures.
-/

namespace BaizeBoard

variable {bits : ℕ} {σ : Type*}

def EOF : ℤ := -1

def putchar (consolePutc : σ → UInt8 → σ × ℤ) (con : σ) (c : ℤ) : σ × ℤ :=
  let (con, taken) := consolePutc con (UInt8.ofInt c)
  (con, if 0 ≤ taken then c else EOF)

/-- `puts` with the `count` of the characters before `s`, which is exact as long as it stays
within `int`. -/
def putsFrom (consolePutc : σ → UInt8 → σ × ℤ) (m : Ram bits) (con : σ) (s : ℕ) (count : ℤ) :
    Option (σ × ℤ) :=
  match _ : m.load s with
  | none => none
  | some c =>
      if c ≠ 0 then
        let (con, res) := putchar consolePutc con c.toNat
        if res = EOF then some (con, EOF) else putsFrom consolePutc m con (s + 1) (count + 1)
      else
        let (con, res) := putchar consolePutc con ('\n'.toUInt8).toNat
        if res = EOF then some (con, EOF) else some (con, count + 1)
termination_by 2 ^ bits - s
decreasing_by exact Ram.left_lt ‹_›

def puts (consolePutc : σ → UInt8 → σ × ℤ) (m : Ram bits) (con : σ) (s : ℕ) : Option (σ × ℤ) :=
  putsFrom consolePutc m con s 0

namespace Puts

/-! ## What reaches the console -/

/-- The console after all characters have been handed to it, whether it takes them or not. -/
def handAll (consolePutc : σ → UInt8 → σ × ℤ) : σ → List UInt8 → σ
  | con, [] => con
  | con, c :: l => handAll consolePutc (consolePutc con c).1 l

/-- The console takes one character after the other. -/
def TakesAll (consolePutc : σ → UInt8 → σ × ℤ) : σ → List UInt8 → Prop
  | _, [] => True
  | con, c :: l => 0 ≤ (consolePutc con c).2 ∧ TakesAll consolePutc (consolePutc con c).1 l

/-- The console, which has taken the characters of `front`, refuses the next one. -/
structure Refuses (consolePutc : σ → UInt8 → σ × ℤ) (con : σ) (front : List UInt8) (c : UInt8) :
    Prop where
  takes : TakesAll consolePutc con front
  refused : (consolePutc (handAll consolePutc con front) c).2 < 0

variable {consolePutc : σ → UInt8 → σ × ℤ} {m : Ram bits} {con : σ} {s : ℕ} {c d : UInt8}
  {t front : List UInt8} {count : ℤ}

theorem Refuses.cons (h : Refuses consolePutc (consolePutc con d).1 front c)
    (hd : 0 ≤ (consolePutc con d).2) : Refuses consolePutc con (d :: front) c :=
  ⟨⟨hd, h.takes⟩, h.refused⟩

/-- Where the text goes through, no character of it is refused. -/
theorem TakesAll.not_refuses {rest : List UInt8}
    (h : TakesAll consolePutc con (front ++ c :: rest)) :
    ¬ Refuses consolePutc con front c := by
  intro hrefuses
  induction front generalizing con with
  | nil => exact Int.not_le.mpr hrefuses.refused h.1
  | cons d front ih => exact ih h.2 ⟨hrefuses.takes.2, hrefuses.refused⟩

/-! ## The loop -/

theorem putsFrom_of_load (h : m.load s = some c) :
    putsFrom consolePutc m con s count =
      if c ≠ 0 then
        let (con, res) := putchar consolePutc con c.toNat
        if res = EOF then some (con, EOF) else putsFrom consolePutc m con (s + 1) (count + 1)
      else
        let (con, res) := putchar consolePutc con ('\n'.toUInt8).toNat
        if res = EOF then some (con, EOF) else some (con, count + 1) := by
  rw [putsFrom]
  exact Ram.match_load h _ _

theorem putchar_taken (h : 0 ≤ (consolePutc con c).2) :
    putchar consolePutc con c.toNat = ((consolePutc con c).1, (c.toNat : ℤ)) := by
  have hofInt : UInt8.ofInt c.toNat = c := by
    simp [UInt8.ofInt, Int.toNat_emod]
  simp [putchar, hofInt, h]

theorem putchar_refused (h : (consolePutc con c).2 < 0) :
    putchar consolePutc con c.toNat = ((consolePutc con c).1, EOF) := by
  have hofInt : UInt8.ofInt c.toNat = c := by
    simp [UInt8.ofInt, Int.toNat_emod]
  simp [putchar, hofInt, Int.not_le.mpr h]

theorem toNat_ne_EOF (c : UInt8) : (c.toNat : ℤ) ≠ EOF := by
  unfold EOF
  omega

/-- The whole line is taken, or `puts` stops behind the first character that is not. -/
theorem putsFrom_eq (consolePutc : σ → UInt8 → σ × ℤ) (con : σ) (count : ℤ) (h : m.Str s t) :
    (TakesAll consolePutc con (t ++ ['\n'.toUInt8]) ∧ putsFrom consolePutc m con s count =
      some (handAll consolePutc con (t ++ ['\n'.toUInt8]), count + t.length + 1)) ∨
    ∃ front c rest, t ++ ['\n'.toUInt8] = front ++ c :: rest ∧ Refuses consolePutc con front c ∧
      putsFrom consolePutc m con s count =
        some (handAll consolePutc con (front ++ [c]), EOF) := by
  induction t generalizing con s count with
  | nil =>
      rw [putsFrom_of_load h.load]
      by_cases htaken : 0 ≤ (consolePutc con '\n'.toUInt8).2
      · refine .inl ⟨⟨htaken, trivial⟩, ?_⟩
        simp [putchar_taken htaken, toNat_ne_EOF, handAll]
      · have hrefused := Int.not_le.mp htaken
        refine .inr ⟨[], '\n'.toUInt8, [], rfl, ⟨trivial, hrefused⟩, ?_⟩
        simp [putchar_refused hrefused, handAll]
  | cons d t ih =>
      rw [putsFrom_of_load h.load, List.headD_cons, if_pos h.head_ne]
      by_cases htaken : 0 ≤ (consolePutc con d).2
      · rw [putchar_taken htaken]
        simp only [toNat_ne_EOF, if_false]
        rcases ih (consolePutc con d).1 (count + 1) h.tail with
          ⟨htakes, hrun⟩ | ⟨front, c, rest, hline, hrefuses, hrun⟩
        · refine .inl ⟨⟨htaken, htakes⟩, hrun.trans ?_⟩
          simp [handAll]
          omega
        · exact .inr ⟨d :: front, c, rest, by simp [hline], hrefuses.cons htaken, hrun⟩
      · have hrefused := Int.not_le.mp htaken
        refine .inr ⟨[], d, t ++ ['\n'.toUInt8], rfl, ⟨trivial, hrefused⟩, ?_⟩
        simp [putchar_refused hrefused, handAll]

theorem cString_of_str {mem : Mem} (hmem : ∀ a c, m.load a = some c → mem a = c) (h : m.Str s t) :
    CString mem s t := by
  induction t generalizing s with
  | nil => exact hmem s 0 h.load
  | cons c t ih => exact ⟨hmem s c h.load, h.head_ne, ih h.tail⟩

theorem image_rodata {a i : ℕ} {bytes : List UInt8} (h : (Ram.image bits a bytes).load i = some c) :
    rodata a bytes i = c := by
  by_cases hi : a ≤ i ∧ i < 2 ^ bits
  · have hget : bytes[i - a]? = some c := by simpa [Ram.image, hi] using h
    simp [rodata, hi.1, hget]
  · simp [Ram.image, hi] at h

end Puts

open Puts

/-- `puts(s)` does what `printf("%s\n", s)` does, and returns the same, exactly as long as the
console takes every character.  Otherwise it returns `EOF` behind the first one refused. -/
theorem puts_matches_printf (m : Ram bits) (mem : Mem)
    (hmem : ∀ a c, m.load a = some c → mem a = c) (asserts : Bool) (fmt : ℕ)
    (hfmt : CString mem fmt (ascii ['%', 's', '\n'])) (s : BitVec 64) (hs : s ≠ 0)
    (t : List UInt8) (h : m.Str s.toNat t) (consolePutc : σ → UInt8 → σ × ℤ) (con : σ)
    (beyond : VaList) :
    Vprintf.Returns mem asserts fmt (.cons s beyond) (t.length + 1) (t ++ ['\n'.toUInt8]) ∧
    ∃ con' res, puts consolePutc m con s.toNat = some (con', res) ∧
      (TakesAll consolePutc con (t ++ ['\n'.toUInt8]) →
        con' = handAll consolePutc con (t ++ ['\n'.toUInt8]) ∧ res = t.length + 1) ∧
      (¬ TakesAll consolePutc con (t ++ ['\n'.toUInt8]) → res = EOF ∧
        ∃ front c rest, t ++ ['\n'.toUInt8] = front ++ c :: rest ∧
          Refuses consolePutc con front c ∧ con' = handAll consolePutc con (front ++ [c])) := by
  constructor
  · have hvalid : ∀ a ∈ [Arg.str s t], a.Valid mem := by
      intro a ha
      rw [List.mem_singleton.mp ha]
      exact ⟨hs, cString_of_str hmem h⟩
    have hrun := @Vprintf.returns_fields mem asserts _ _ [.str s t] [.str t, .lit '\n'.toUInt8]
      hfmt hvalid rfl beyond
    have hdoc : (parse .printf (ascii ['%', 's', '\n'])).Documented := by decide
    simpa [hdoc, Arg.slot, Field.counted, Field.render] using hrun
  · rcases putsFrom_eq consolePutc con 0 h with
      ⟨htakes, hrun⟩ | ⟨front, c, rest, hline, hrefuses, hrun⟩
    · exact ⟨_, _, hrun, fun _ ↦ ⟨rfl, by simp⟩, fun hnot ↦ (hnot htakes).elim⟩
    · refine ⟨_, _, hrun, fun htakes ↦ ?_, fun _ ↦ ⟨rfl, front, c, rest, hline, hrefuses, rfl⟩⟩
      rw [hline] at htakes
      exact (htakes.not_refuses hrefuses).elim

/-- A console that takes one of the three characters of `"hi\n"`. -/
theorem puts_matches_printf_example :
    let bytes := ascii ['h', 'i'] ++ 0 :: ascii ['%', 's', '\n']
    let consolePutc : ℕ → UInt8 → ℕ × ℤ := fun n _ ↦ (n + 1, if n < 1 then 0 else -1)
    Vprintf.Returns (rodata 16 bytes) true 19 (.cons 16 (.const 0))
      ((ascii ['h', 'i']).length + 1) (ascii ['h', 'i'] ++ ['\n'.toUInt8]) ∧
    ∃ con' res, puts consolePutc (Ram.image 64 16 bytes) 0 16 = some (con', res) ∧
      (TakesAll consolePutc 0 (ascii ['h', 'i'] ++ ['\n'.toUInt8]) →
        con' = handAll consolePutc 0 (ascii ['h', 'i'] ++ ['\n'.toUInt8]) ∧
        res = (ascii ['h', 'i']).length + 1) ∧
      (¬ TakesAll consolePutc 0 (ascii ['h', 'i'] ++ ['\n'.toUInt8]) → res = EOF ∧
        ∃ front c rest, ascii ['h', 'i'] ++ ['\n'.toUInt8] = front ++ c :: rest ∧
          Refuses consolePutc 0 front c ∧ con' = handAll consolePutc 0 (front ++ [c])) :=
  puts_matches_printf _ _ (fun _ _ ↦ image_rodata) true 19 (by decide) 16 (by decide) _
    (by decide) _ 0 (.const 0)

end BaizeBoard
