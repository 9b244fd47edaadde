import BaizeBoard.Library.ByteOrder
import BaizeBoard.Library.Word
import Mathlib.Data.LawfulXor.Basic
import Mathlib.Tactic.IntervalCases

/-!
# `endian.h`

Each architecture has its own `endian_.h` with instructions or expressions that swap
bytes.  `endian.h` makes the conversions from and to the order of the host of them,
and encodes and decodes words byte by byte, wherever they stand.
-/

namespace BaizeBoard

open LittleEndian

variable {bits : ℕ}

/-! ## `endian_.h` -/

namespace Aarch64

/-- `rev %0, %1` -/
def bswap64 (x : BitVec 64) : BitVec 64 := rev 8 x

/-- `rev32 %x0, %x1`, of a register that has `above` above `v`. -/
def bswap32Var (above v : BitVec 32) : BitVec 32 := (rev 4 (above ++ v)).setWidth 32

/-- `rev16 %w0, %w1`, of a register that has `above` above `v`. -/
def bswap16Var (above v : BitVec 16) : BitVec 16 := (rev 2 (above ++ v)).setWidth 16

end Aarch64

namespace Aarch32

def bswap64 (x : BitVec 64) : BitVec 64 :=
  (x >>> 56) ||| ((x >>> 40) &&& 0xff00) ||| ((x >>> 24) &&& 0xff0000) |||
    ((x >>> 8) &&& 0xff000000) ||| ((x <<< 8) &&& (0xff <<< 32)) |||
    ((x <<< 24) &&& (0xff <<< 40)) |||
    ((x <<< 40) &&& (0xff <<< 48)) ||| (x <<< 56)

def bswap32Var (v : BitVec 32) : BitVec 32 :=
  let t1 := v ^^^ v.rotateRight 16
  let t1 := t1 &&& ~~~0x00ff0000
  let v := v.rotateRight 8
  v ^^^ (t1 >>> 8)

def bswap16Var (v : BitVec 16) : BitVec 16 :=
  let ret : BitVec 32 := v.setWidth 32 &&& 0xffff
  let ret := ret.rotateRight 8
  let ret := ret ||| (ret >>> 16)
  let ret := ret &&& ~~~(ret <<< 16)
  ret.setWidth 16

end Aarch32

def bswap32Constant (x : BitVec 32) : BitVec 32 :=
  ((x &&& 0xff000000) >>> 24) ||| ((x &&& 0x00ff0000) >>> 8) ||| ((x &&& 0x0000ff00) <<< 8) |||
    ((x &&& 0x000000ff) <<< 24)

/-- The macro is used on a promoted `uint16_t`, and cast back. -/
def bswap16Constant (x : BitVec 16) : BitVec 16 :=
  let x : BitVec 32 := x.setWidth 32
  (((x &&& 0xff00) >>> 8) ||| ((x &&& 0x00ff) <<< 8)).setWidth 16

/-! ### What they swap -/

theorem and_255 (c : UInt8) : c &&& 255 = c := by
  rw [← UInt8.toBitVec_inj]
  exact BitVec.and_allOnes

theorem Aarch32.bswap64_eq (x : BitVec 64) : Aarch32.bswap64 x = rev 8 x := by
  apply eq_of_byte_eq (k := 8) rfl
  intro j hj
  rw [byte_rev (by omega)]
  interval_cases j <;>
    simp [Aarch32.bswap64, byte_shiftRight, byte_shiftLeft, byte_of_le, byte_ofNat, and_255]

theorem Aarch32.bswap32Var_eq (v : BitVec 32) : Aarch32.bswap32Var v = rev 4 v := by
  apply eq_of_byte_eq (k := 4) rfl
  intro j hj
  rw [byte_rev (by omega)]
  interval_cases j <;>
    simp [Aarch32.bswap32Var, byte_shiftRight, byte_rotateRight (k := 4) rfl, byte_of_le,
      byte_ofNat, and_255]

theorem Aarch32.bswap16Var_eq (v : BitVec 16) : Aarch32.bswap16Var v = rev 2 v := by
  apply eq_of_byte_eq (k := 2) rfl
  intro j hj
  rw [byte_rev (by omega)]
  interval_cases j <;>
    simp [Aarch32.bswap16Var, byte_shiftRight, byte_rotateRight (k := 4) rfl, byte_of_le,
      byte_ofNat, and_255, byte_setWidth]

theorem bswap32Constant_eq (x : BitVec 32) : bswap32Constant x = rev 4 x := by
  apply eq_of_byte_eq (k := 4) rfl
  intro j hj
  rw [byte_rev (by omega)]
  interval_cases j <;>
    simp [bswap32Constant, byte_shiftRight, byte_shiftLeft, byte_of_le, byte_ofNat, and_255]

theorem bswap16Constant_eq (x : BitVec 16) : bswap16Constant x = rev 2 x := by
  apply eq_of_byte_eq (k := 2) rfl
  intro j hj
  rw [byte_rev (by omega)]
  interval_cases j <;>
    simp [bswap16Constant, byte_shiftRight, byte_shiftLeft, byte_of_le, byte_ofNat, and_255,
      byte_setWidth]

theorem Aarch64.bswap32Var_eq (above v : BitVec 32) : Aarch64.bswap32Var above v = rev 4 v := by
  apply eq_of_byte_eq (k := 4) rfl
  intro j hj
  rw [Aarch64.bswap32Var, byte_setWidth (by omega), byte_rev (by omega), byte_rev (by omega),
    byte_append (by omega)]

theorem Aarch64.bswap16Var_eq (above v : BitVec 16) : Aarch64.bswap16Var above v = rev 2 v := by
  apply eq_of_byte_eq (k := 2) rfl
  intro j hj
  rw [Aarch64.bswap16Var, byte_setWidth (by omega), byte_rev (by omega), byte_rev (by omega),
    byte_append (by omega)]

/-! ## `endian.h` -/

/-- What `endian.h` has of an architecture: whether `_BYTE_ORDER` is `_BIG_ENDIAN`, and
functions that swap the bytes of a word. -/
structure Endian where
  big : Bool
  bswap16 : BitVec 16 → BitVec 16
  bswap32 : BitVec 32 → BitVec 32
  bswap64 : BitVec 64 → BitVec 64
  bswap16_eq : ∀ x, bswap16 x = rev 2 x
  bswap32_eq : ∀ x, bswap32 x = rev 4 x
  bswap64_eq : ∀ x, bswap64 x = rev 8 x

namespace Endian

/-- `endian_.h` of AArch64, for an argument that is a `constant` under `__OPTIMIZE__` or not. -/
def aarch64 (constant : Bool) (above16 : BitVec 16) (above32 : BitVec 32) : Endian where
  big := false
  bswap16 x := if constant then bswap16Constant x else Aarch64.bswap16Var above16 x
  bswap32 x := if constant then bswap32Constant x else Aarch64.bswap32Var above32 x
  bswap64 := Aarch64.bswap64
  bswap16_eq x := by rw [bswap16Constant_eq, Aarch64.bswap16Var_eq, ite_self]
  bswap32_eq x := by rw [bswap32Constant_eq, Aarch64.bswap32Var_eq, ite_self]
  bswap64_eq _ := rfl

/-- `endian_.h` of AArch32, with `__ARMEB__` or without. -/
def aarch32 (armeb constant : Bool) : Endian where
  big := armeb
  bswap16 x := if constant then bswap16Constant x else Aarch32.bswap16Var x
  bswap32 x := if constant then bswap32Constant x else Aarch32.bswap32Var x
  bswap64 := Aarch32.bswap64
  bswap16_eq x := by rw [bswap16Constant_eq, Aarch32.bswap16Var_eq, ite_self]
  bswap32_eq x := by rw [bswap32Constant_eq, Aarch32.bswap32Var_eq, ite_self]
  bswap64_eq := Aarch32.bswap64_eq

variable (e : Endian)

def htobe16 (x : BitVec 16) : BitVec 16 := if e.big then x else e.bswap16 x
def htobe32 (x : BitVec 32) : BitVec 32 := if e.big then x else e.bswap32 x
def htobe64 (x : BitVec 64) : BitVec 64 := if e.big then x else e.bswap64 x
def htole16 (x : BitVec 16) : BitVec 16 := if e.big then e.bswap16 x else x
def htole32 (x : BitVec 32) : BitVec 32 := if e.big then e.bswap32 x else x
def htole64 (x : BitVec 64) : BitVec 64 := if e.big then e.bswap64 x else x

def be16toh (x : BitVec 16) : BitVec 16 := if e.big then x else e.bswap16 x
def be32toh (x : BitVec 32) : BitVec 32 := if e.big then x else e.bswap32 x
def be64toh (x : BitVec 64) : BitVec 64 := if e.big then x else e.bswap64 x
def le16toh (x : BitVec 16) : BitVec 16 := if e.big then e.bswap16 x else x
def le32toh (x : BitVec 32) : BitVec 32 := if e.big then e.bswap32 x else x
def le64toh (x : BitVec 64) : BitVec 64 := if e.big then e.bswap64 x else x

/-- The bytes of a word, given from the lowest one, in the order of their addresses. -/
def ordered (big : Bool) (l : List UInt8) : List UInt8 := if big then l.reverse else l

/-- A store of `k` bytes through a pointer to a word. -/
def store (m : Ram bits) (a k : ℕ) (x : BitVec (8 * k)) : Option (Ram bits) :=
  if k ∣ a ∧ m.Mapped a k then some (m.write a (ordered e.big (bytes k x.toNat))) else none

/-- A load of `k` bytes through a pointer to a word. -/
def load (m : Ram bits) (a k : ℕ) : Option (BitVec (8 * k)) :=
  if k ∣ a then (m.loadBytes a k).map fun l ↦ BitVec.ofNat (8 * k) (value (ordered e.big l))
  else none

end Endian

/-! ### Encoding and decoding -/

/-- A byte of memory as the `int` or `unsigned` it is promoted to. -/
def promote (c : UInt8) : BitVec 32 := c.toBitVec.setWidth 32

/-- `x & 0xff`, as a `uint8_t`. -/
def lowest {w : ℕ} (x : BitVec w) : UInt8 := UInt8.ofBitVec ((x &&& 0xff).setWidth 8)

def be16dec (m : Ram bits) (p : ℕ) : Option (BitVec 16) := do
  let p0 ← m.load p
  let p1 ← m.load (p + 1)
  return ((promote p0 <<< 8) ||| promote p1).setWidth 16

def be32dec (m : Ram bits) (p : ℕ) : Option (BitVec 32) := do
  let p0 ← m.load p
  let p1 ← m.load (p + 1)
  let p2 ← m.load (p + 2)
  let p3 ← m.load (p + 3)
  return (promote p0 <<< 24) ||| (promote p1 <<< 16) ||| (promote p2 <<< 8) ||| promote p3

def be64dec (m : Ram bits) (p : ℕ) : Option (BitVec 64) := do
  let high ← be32dec m p
  let low ← be32dec m (p + 4)
  return (high.setWidth 64 <<< 32) ||| low.setWidth 64

def le16dec (m : Ram bits) (p : ℕ) : Option (BitVec 16) := do
  let p0 ← m.load p
  let p1 ← m.load (p + 1)
  return ((promote p1 <<< 8) ||| promote p0).setWidth 16

def le32dec (m : Ram bits) (p : ℕ) : Option (BitVec 32) := do
  let p0 ← m.load p
  let p1 ← m.load (p + 1)
  let p2 ← m.load (p + 2)
  let p3 ← m.load (p + 3)
  return (promote p3 <<< 24) ||| (promote p2 <<< 16) ||| (promote p1 <<< 8) ||| promote p0

def le64dec (m : Ram bits) (p : ℕ) : Option (BitVec 64) := do
  let high ← le32dec m (p + 4)
  let low ← le32dec m p
  return (high.setWidth 64 <<< 32) ||| low.setWidth 64

def be16enc (m : Ram bits) (p : ℕ) (u : BitVec 16) : Option (Ram bits) := do
  let m ← m.store p (lowest (u >>> 8))
  m.store (p + 1) (lowest u)

def be32enc (m : Ram bits) (p : ℕ) (u : BitVec 32) : Option (Ram bits) := do
  let m ← m.store p (lowest (u >>> 24))
  let m ← m.store (p + 1) (lowest (u >>> 16))
  let m ← m.store (p + 2) (lowest (u >>> 8))
  m.store (p + 3) (lowest u)

def be64enc (m : Ram bits) (p : ℕ) (u : BitVec 64) : Option (Ram bits) := do
  let m ← be32enc m p ((u >>> 32).setWidth 32)
  be32enc m (p + 4) ((u &&& 0xffffffff).setWidth 32)

def le16enc (m : Ram bits) (p : ℕ) (u : BitVec 16) : Option (Ram bits) := do
  let m ← m.store p (lowest u)
  m.store (p + 1) (lowest (u >>> 8))

def le32enc (m : Ram bits) (p : ℕ) (u : BitVec 32) : Option (Ram bits) := do
  let m ← m.store p (lowest u)
  let m ← m.store (p + 1) (lowest (u >>> 8))
  let m ← m.store (p + 2) (lowest (u >>> 16))
  m.store (p + 3) (lowest (u >>> 24))

def le64enc (m : Ram bits) (p : ℕ) (u : BitVec 64) : Option (Ram bits) := do
  let m ← le32enc m p ((u &&& 0xffffffff).setWidth 32)
  le32enc m (p + 4) ((u >>> 32).setWidth 32)

namespace Endian

variable {m : Ram bits} {p k : ℕ} {l : List UInt8}

/-! ### Byte by byte -/

theorem lowest_eq {w : ℕ} (x : BitVec w) (hw : 8 ≤ w) : lowest x = byte x 0 := by
  have hbyte : lowest x = byte ((x &&& 0xff).setWidth 8) 0 := (byte_toBitVec _).symm
  rw [hbyte, byte_setWidth (by omega)]
  simp [byte_ofNat, hw, and_255]

theorem store_two (h : m.Mapped p 2) (a b : UInt8) :
    ((m.store p a).bind fun m ↦ m.store (p + 1) b) = some (m.write p [a, b]) := by
  have ha : m.store p a = some (m.write p [a]) := Ram.store_eq (h 0 (by omega)) a
  rw [ha, Option.bind_some]
  exact Ram.store_write (l := [a]) h b

theorem store_four (h : m.Mapped p 4) (a b c d : UInt8) :
    ((m.store p a).bind fun m ↦ (m.store (p + 1) b).bind fun m ↦
      (m.store (p + 2) c).bind fun m ↦ m.store (p + 3) d) = some (m.write p [a, b, c, d]) := by
  have ha : m.store p a = some (m.write p [a]) := Ram.store_eq (h 0 (by omega)) a
  have hb := Ram.store_write (l := [a]) (h.mono (by simp)) b
  have hc := Ram.store_write (l := [a, b]) (h.mono (by simp)) c
  have hd := Ram.store_write (l := [a, b, c]) h d
  simp only [List.length_cons, List.length_nil, List.cons_append, List.nil_append,
    Nat.zero_add, Nat.reduceAdd] at hb hc hd
  rw [ha, Option.bind_some, hb, Option.bind_some, hc, Option.bind_some, hd]

theorem word16 (a b : UInt8) :
    ((promote a <<< 8) ||| promote b).setWidth 16 = BitVec.ofNat 16 (value [b, a]) := by
  apply eq_of_byte_eq (k := 2) rfl
  intro j hj
  rw [byte_value (l := [b, a]) (by simp) hj]
  interval_cases j <;> simp [promote, byte_setWidth, byte_shiftLeft, byte_of_le]

theorem word32 (a b c d : UInt8) :
    (promote a <<< 24) ||| (promote b <<< 16) ||| (promote c <<< 8) ||| promote d =
      BitVec.ofNat 32 (value [d, c, b, a]) := by
  apply eq_of_byte_eq (k := 4) rfl
  intro j hj
  rw [byte_value (l := [d, c, b, a]) (by simp) hj]
  interval_cases j <;> simp [promote, byte_setWidth, byte_shiftLeft, byte_of_le]

theorem word64 {high low : List UInt8} (hhigh : high.length = 4) (hlow : low.length = 4) :
    ((BitVec.ofNat 32 (value high)).setWidth 64 <<< 32) |||
      (BitVec.ofNat 32 (value low)).setWidth 64 = BitVec.ofNat 64 (value (low ++ high)) := by
  apply eq_of_byte_eq (k := 8) rfl
  intro j hj
  have hlength : (low ++ high).length = 8 := by rw [List.length_append, hlow, hhigh]
  rw [byte_value (by rw [hlength]) (by rwa [hlength]), byte_or,
    byte_shiftLeft rfl (by omega), byte_setWidth (x := BitVec.ofNat 32 (value low)) (by omega)]
  by_cases h : j < 4
  · rw [if_neg (by omega), byte_value (by omega) (by omega), List.getElem_append_left (by omega),
      UInt8.zero_or]
  · rw [if_pos (by omega), byte_setWidth (by omega), byte_value (by omega) (by omega),
      byte_of_le (j := j) (by omega), List.getElem_append_right (by omega), UInt8.or_zero]
    simp [hlow]

theorem bytes_halves (u : BitVec 64) :
    bytes 8 u.toNat = bytes 4 ((u &&& 0xffffffff).setWidth 32).toNat ++
      bytes 4 ((u >>> 32).setWidth 32).toNat := by
  rw [bytes_toNat (k := 8) rfl, bytes_toNat (k := 4) rfl, bytes_toNat (k := 4) rfl]
  simp [List.range_succ, byte_setWidth, byte_shiftRight, byte_ofNat, and_255]

/-- A pair of functions that encode and decode words of `k` bytes, from the highest one or
from the lowest one on. -/
structure Codes (bits : ℕ) (big : Bool) (k : ℕ)
    (enc : Ram bits → ℕ → BitVec (8 * k) → Option (Ram bits))
    (dec : Ram bits → ℕ → Option (BitVec (8 * k))) : Prop where
  enc_eq : ∀ m p u, m.Mapped p k → enc m p u = some (m.write p (ordered big (bytes k u.toNat)))
  dec_eq : ∀ m p l, m.Holds p l → l.length = k →
    dec m p = some (BitVec.ofNat (8 * k) (value (ordered big l)))

theorem be16_codes : Codes bits true 2 be16enc be16dec where
  enc_eq m p u h := by
    rw [bytes_toNat (k := 2) rfl]
    simpa [be16enc, lowest_eq, byte_shiftRight, ordered, List.range_succ] using
      store_two h (byte u 1) (byte u 0)
  dec_eq m p l h hlength := by
    match l, hlength with
    | [a, b], _ =>
        have ha : m.load p = some a := h.1
        have hb : m.load (p + 1) = some b := h.2.1
        simp only [be16dec, ha, hb, Option.bind_eq_bind, Option.bind_some]
        exact congrArg some (word16 a b)

theorem le16_codes : Codes bits false 2 le16enc le16dec where
  enc_eq m p u h := by
    rw [bytes_toNat (k := 2) rfl]
    simpa [le16enc, lowest_eq, byte_shiftRight, ordered, List.range_succ] using
      store_two h (byte u 0) (byte u 1)
  dec_eq m p l h hlength := by
    match l, hlength with
    | [a, b], _ =>
        have ha : m.load p = some a := h.1
        have hb : m.load (p + 1) = some b := h.2.1
        simp only [le16dec, ha, hb, Option.bind_eq_bind, Option.bind_some]
        exact congrArg some (word16 b a)

theorem be32_codes : Codes bits true 4 be32enc be32dec where
  enc_eq m p u h := by
    rw [bytes_toNat (k := 4) rfl]
    simpa [be32enc, lowest_eq, byte_shiftRight, ordered, List.range_succ] using
      store_four h (byte u 3) (byte u 2) (byte u 1) (byte u 0)
  dec_eq m p l h hlength := by
    match l, hlength with
    | [a, b, c, d], _ =>
        have ha : m.load p = some a := h.1
        have hb : m.load (p + 1) = some b := h.2.1
        have hc : m.load (p + 2) = some c := h.2.2.1
        have hd : m.load (p + 3) = some d := h.2.2.2.1
        simp only [be32dec, ha, hb, hc, hd, Option.bind_eq_bind, Option.bind_some]
        exact congrArg some (word32 a b c d)

theorem le32_codes : Codes bits false 4 le32enc le32dec where
  enc_eq m p u h := by
    rw [bytes_toNat (k := 4) rfl]
    simpa [le32enc, lowest_eq, byte_shiftRight, ordered, List.range_succ] using
      store_four h (byte u 0) (byte u 1) (byte u 2) (byte u 3)
  dec_eq m p l h hlength := by
    match l, hlength with
    | [a, b, c, d], _ =>
        have ha : m.load p = some a := h.1
        have hb : m.load (p + 1) = some b := h.2.1
        have hc : m.load (p + 2) = some c := h.2.2.1
        have hd : m.load (p + 3) = some d := h.2.2.2.1
        simp only [le32dec, ha, hb, hc, hd, Option.bind_eq_bind, Option.bind_some]
        exact congrArg some (word32 d c b a)

@[simp] theorem length_ordered (big : Bool) (l : List UInt8) :
    (ordered big l).length = l.length := by
  cases big <;> simp [ordered]

@[simp] theorem ordered_ordered (big : Bool) (l : List UInt8) :
    ordered big (ordered big l) = l := by
  cases big <;> simp [ordered]

theorem be64_codes : Codes bits true 8 be64enc be64dec where
  enc_eq m p u h := by
    have hlow : m.Mapped (p + 4) 4 := h.right
    have hwrite := Ram.write_append (m := m) (a := p)
      (l := ordered true (bytes 4 ((u >>> 32).setWidth 32).toNat))
      (r := ordered true (bytes 4 ((u &&& 0xffffffff).setWidth 32).toNat))
    rw [length_ordered, length_bytes] at hwrite
    rw [be64enc, be32_codes.enc_eq m p _ (h.mono (by omega)), Option.bind_eq_bind,
      Option.bind_some, be32_codes.enc_eq _ (p + 4) _ (Ram.mapped_write.mpr hlow), hwrite,
      bytes_halves]
    simp [ordered]
  dec_eq m p l h hlength := by
    rw [← List.take_append_drop 4 l] at h
    obtain ⟨hhigh, hlow⟩ := Ram.holds_append.mp h
    have htake : (l.take 4).length = 4 := by simp [hlength]
    have hdrop : (l.drop 4).length = 4 := by simp [hlength]
    rw [htake] at hlow
    rw [be64dec, be32_codes.dec_eq m p _ hhigh htake, be32_codes.dec_eq m _ _ hlow hdrop]
    refine congrArg some ((word64 ?_ ?_).trans ?_)
    · rw [length_ordered, htake]
    · rw [length_ordered, hdrop]
    · simp [ordered, ← List.reverse_append]

theorem le64_codes : Codes bits false 8 le64enc le64dec where
  enc_eq m p u h := by
    have hhigh : m.Mapped (p + 4) 4 := h.right
    have hwrite := Ram.write_append (m := m) (a := p)
      (l := ordered false (bytes 4 ((u &&& 0xffffffff).setWidth 32).toNat))
      (r := ordered false (bytes 4 ((u >>> 32).setWidth 32).toNat))
    rw [length_ordered, length_bytes] at hwrite
    rw [le64enc, le32_codes.enc_eq m p _ (h.mono (by omega)), Option.bind_eq_bind,
      Option.bind_some, le32_codes.enc_eq _ (p + 4) _ (Ram.mapped_write.mpr hhigh), hwrite,
      bytes_halves]
    simp [ordered]
  dec_eq m p l h hlength := by
    rw [← List.take_append_drop 4 l] at h
    obtain ⟨hlow, hhigh⟩ := Ram.holds_append.mp h
    have htake : (l.take 4).length = 4 := by simp [hlength]
    have hdrop : (l.drop 4).length = 4 := by simp [hlength]
    rw [htake] at hhigh
    rw [le64dec, le32_codes.dec_eq m p _ hlow htake, le32_codes.dec_eq m _ _ hhigh hdrop]
    refine congrArg some ((word64 ?_ ?_).trans ?_)
    · rw [length_ordered, hdrop]
    · rw [length_ordered, htake]
    · simp [ordered]

/-! ### Round trips -/

variable {big : Bool} {enc : Ram bits → ℕ → BitVec (8 * k) → Option (Ram bits)}
  {dec : Ram bits → ℕ → Option (BitVec (8 * k))}

/-- What has been encoded is decoded, with nothing else stored; what is decoded is a word whose
encoding is there. -/
def RoundTrips (bits k : ℕ) (enc : Ram bits → ℕ → BitVec (8 * k) → Option (Ram bits))
    (dec : Ram bits → ℕ → Option (BitVec (8 * k))) : Prop :=
  ∀ m p, m.Mapped p k →
    (∀ u, ∃ m', enc m p u = some m' ∧ dec m' p = some u ∧
      ∀ a, a < p ∨ p + k ≤ a → m'.load a = m.load a) ∧
    ∃ u, dec m p = some u ∧ enc m p u = some m

theorem Codes.roundTrips (h : Codes bits big k enc dec) : RoundTrips bits k enc dec := by
  intro m p hmapped
  constructor
  · intro u
    have hlength : (ordered big (bytes k u.toNat)).length = k := by
      rw [length_ordered, length_bytes]
    have hholds := Ram.holds_write (l := ordered big (bytes k u.toNat)) (by rwa [hlength])
    refine ⟨_, h.enc_eq m p u hmapped, ?_, ?_⟩
    · rw [h.dec_eq _ p _ hholds hlength, ordered_ordered, ofNat_bytes rfl]
    · rintro a (ha | ha)
      · exact Ram.load_write_of_lt ha
      · exact Ram.load_write_of_ge (by rwa [hlength])
  · obtain ⟨l, hlength, hholds⟩ := Ram.exists_holds hmapped
    subst hlength
    have hbytes := bytes_ofNat (w := 8 * l.length) (l := ordered big l) (by rw [length_ordered])
    rw [length_ordered] at hbytes
    refine ⟨_, h.dec_eq m p l hholds rfl, ?_⟩
    rw [h.enc_eq m p _ hmapped, hbytes, ordered_ordered, hholds.write_self]

/-! ### The order of the host -/

/-- Encoding is a store of the word in the order `hto` brings it in, and decoding a load of
the word that `toh` brings back. -/
def HostOrder (bits : ℕ) (e : Endian) (k : ℕ)
    (enc : Ram bits → ℕ → BitVec (8 * k) → Option (Ram bits))
    (dec : Ram bits → ℕ → Option (BitVec (8 * k))) (hto toh : BitVec (8 * k) → BitVec (8 * k)) :
    Prop :=
  ∀ m p, k ∣ p → m.Mapped p k →
    (∀ u, enc m p u = e.store m p k (hto u)) ∧ dec m p = (e.load m p k).map toh

theorem ordered_of_ne {a b : Bool} (h : a ≠ b) (l : List UInt8) :
    ordered a l = (ordered b l).reverse := by
  cases a <;> cases b <;> simp_all [ordered]

theorem Codes.hostOrder (h : Codes bits big k enc dec) (e : Endian)
    {swap : BitVec (8 * k) → BitVec (8 * k)}
    (hswap : ∀ x, swap x = if e.big = big then x else rev k x) :
    HostOrder bits e k enc dec swap swap := by
  intro m p halign hmapped
  constructor
  · intro u
    rw [h.enc_eq m p u hmapped, store, if_pos ⟨halign, hmapped⟩, hswap]
    by_cases hbig : e.big = big
    · rw [if_pos hbig, hbig]
    · rw [if_neg hbig, bytes_rev rfl, ordered_of_ne (Ne.symm hbig)]
      cases e.big <;> simp [ordered]
  · obtain ⟨l, hlength, hholds⟩ := Ram.exists_holds hmapped
    subst hlength
    rw [h.dec_eq m p l hholds rfl, load, if_pos halign, hholds.loadBytes, Option.map_some,
      Option.map_some, hswap]
    by_cases hbig : e.big = big
    · rw [if_pos hbig, hbig]
    · have hrev := rev_ofNat (w := 8 * l.length) (l := ordered e.big l) (by rw [length_ordered])
      rw [length_ordered, ← ordered_of_ne (Ne.symm hbig)] at hrev
      rw [if_neg hbig, hrev]

end Endian

open Endian

/-- However it is done, swapping puts the bytes of a word into the other order, whatever
stands above the word in its register. -/
theorem bswap_rev (above16 : BitVec 16) (above32 : BitVec 32) :
    (∀ x, Aarch32.bswap16Var x = rev 2 x ∧ Aarch64.bswap16Var above16 x = rev 2 x ∧
      bswap16Constant x = rev 2 x) ∧
    (∀ x, Aarch32.bswap32Var x = rev 4 x ∧ Aarch64.bswap32Var above32 x = rev 4 x ∧
      bswap32Constant x = rev 4 x) ∧
    ∀ x, Aarch32.bswap64 x = Aarch64.bswap64 x :=
  ⟨fun x ↦ ⟨Aarch32.bswap16Var_eq x, Aarch64.bswap16Var_eq above16 x, bswap16Constant_eq x⟩,
    fun x ↦ ⟨Aarch32.bswap32Var_eq x, Aarch64.bswap32Var_eq above32 x, bswap32Constant_eq x⟩,
    Aarch32.bswap64_eq⟩

/-- The encoders and decoders of `endian.h`, wherever the word stands. -/
theorem endian_round_trips :
    RoundTrips bits 2 be16enc be16dec ∧ RoundTrips bits 4 be32enc be32dec ∧
    RoundTrips bits 8 be64enc be64dec ∧ RoundTrips bits 2 le16enc le16dec ∧
    RoundTrips bits 4 le32enc le32dec ∧ RoundTrips bits 8 le64enc le64dec :=
  ⟨be16_codes.roundTrips, be32_codes.roundTrips, be64_codes.roundTrips, le16_codes.roundTrips,
    le32_codes.roundTrips, le64_codes.roundTrips⟩

/-- Four bytes at an odd address. -/
theorem endian_round_trips_example :
    let m := Ram.image 64 0x101 [1, 2, 3, 4]
    (∃ m', be32enc m 0x101 0xaabbccdd = some m' ∧ be32dec m' 0x101 = some 0xaabbccdd ∧
      ∀ a, a < 0x101 ∨ 0x101 + 4 ≤ a → m'.load a = m.load a) ∧
    ∃ u, be32dec m 0x101 = some u ∧ be32enc m 0x101 u = some m := by
  intro m
  obtain ⟨-, hbe32, -⟩ := @endian_round_trips 64
  obtain ⟨hencode, hdecode⟩ := hbe32 m 0x101 (by decide)
  exact ⟨hencode 0xaabbccdd, hdecode⟩

/-- At an aligned address, encoding and decoding is storing and loading a word that has been
brought into the order of the stream, on a host of either order. -/
theorem endian_host_order (e : Endian) :
    HostOrder bits e 2 be16enc be16dec e.htobe16 e.be16toh ∧
    HostOrder bits e 4 be32enc be32dec e.htobe32 e.be32toh ∧
    HostOrder bits e 8 be64enc be64dec e.htobe64 e.be64toh ∧
    HostOrder bits e 2 le16enc le16dec e.htole16 e.le16toh ∧
    HostOrder bits e 4 le32enc le32dec e.htole32 e.le32toh ∧
    HostOrder bits e 8 le64enc le64dec e.htole64 e.le64toh := by
  refine ⟨be16_codes.hostOrder e ?_, be32_codes.hostOrder e ?_, be64_codes.hostOrder e ?_,
    le16_codes.hostOrder e ?_, le32_codes.hostOrder e ?_, le64_codes.hostOrder e ?_⟩
  · exact fun x ↦ by rw [htobe16, e.bswap16_eq]
  · exact fun x ↦ by rw [htobe32, e.bswap32_eq]
  · exact fun x ↦ by rw [htobe64, e.bswap64_eq]
  · exact fun x ↦ by cases h : e.big <;> simp [htole16, h, e.bswap16_eq]
  · exact fun x ↦ by cases h : e.big <;> simp [htole32, h, e.bswap32_eq]
  · exact fun x ↦ by cases h : e.big <;> simp [htole64, h, e.bswap64_eq]

/-- A 32-bit word in the AArch64 order, at an address that four divides. -/
theorem endian_host_order_example :
    let m := Ram.image 64 0x100 [1, 2, 3, 4]
    let e := aarch64 false 0 0
    be32enc m 0x100 0xaabbccdd = e.store m 0x100 4 (e.htobe32 0xaabbccdd) ∧
      be32dec m 0x100 = (e.load m 0x100 4).map e.be32toh := by
  intro m e
  obtain ⟨-, hbe32, -⟩ := @endian_host_order 64 e
  obtain ⟨hencode, hdecode⟩ := hbe32 m 0x100 (by decide) (by decide)
  exact ⟨hencode 0xaabbccdd, hdecode⟩

end BaizeBoard
