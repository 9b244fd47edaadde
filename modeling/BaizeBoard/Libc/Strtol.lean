import BaizeBoard.Library.Ram
import Mathlib.Data.Int.Notation
import Mathlib.Algebra.Ring.Int.Defs

/-!
# `strtol`, `strtoul`, `strtoll` and `strtoull`

The four functions have one body over different integer types, and set
different bounds in it.  A loop of the source is a recursive function here; it
has no result when it loads from outside of the memory.

`long` has 64 bits on AArch64 and 32 on AArch32.
-/

namespace BaizeBoard.Strto

variable {bits : ℕ}

def isspace (x : UInt8) : Bool :=
  x = ' '.toUInt8 ∨ x = '\r'.toUInt8 ∨ x = '\n'.toUInt8 ∨ x = '\t'.toUInt8 ∨ x = '\x08'.toUInt8

/-- `do { c = *s++; } while (isspace((unsigned char)c));` -/
def skipSpaces (m : Ram bits) (s : ℕ) : Option (UInt8 × ℕ) :=
  match h : m.load s with
  | none => none
  | some c => if isspace c then skipSpaces m (s + 1) else some (c, s + 1)
termination_by 2 ^ bits - s
decreasing_by exact Ram.left_lt h

/-- The `if` that sets `neg`. -/
def takeSign (m : Ram bits) (c : UInt8) (s : ℕ) : Option (Bool × UInt8 × ℕ) := do
  if c = '-'.toUInt8 then
    let c ← m.load s
    return (true, c, s + 1)
  else if c = '+'.toUInt8 then
    let c ← m.load s
    return (false, c, s + 1)
  else return (false, c, s)

def isHexDigit (c : UInt8) : Bool :=
  '0'.toUInt8 ≤ c ∧ c ≤ '9'.toUInt8 ∨ 'A'.toUInt8 ≤ c ∧ c ≤ 'F'.toUInt8 ∨
    'a'.toUInt8 ≤ c ∧ c ≤ 'f'.toUInt8

/-- The condition on which `0x` is skipped.  `&&` looks at `*s` only behind a
`0`, and at `s[1]` only behind an `x`. -/
def hexAhead (m : Ram bits) (base : ℤ) (c : UInt8) (s : ℕ) : Option Bool := do
  if (base = 0 ∨ base = 16) ∧ c = '0'.toUInt8 then
    let x ← m.load s
    if x = 'x'.toUInt8 ∨ x = 'X'.toUInt8 then
      let d ← m.load (s + 1)
      return isHexDigit d
    else return false
  else return false

/-- Both `if`s that settle `base`. -/
def takeBase (m : Ram bits) (base : ℤ) (c : UInt8) (s : ℕ) : Option (ℤ × UInt8 × ℕ) := do
  if ← hexAhead m base c s then
    let c ← m.load (s + 1)
    return (16, c, s + 2)
  else if base = 0 then return (if c = '0'.toUInt8 then 8 else 10, c, s)
  else return (base, c, s)

/-- What the loop makes of `c`; `none` is the `break` of its last `else`. -/
def digit (c : UInt8) : Option ℕ :=
  if '0'.toUInt8 ≤ c ∧ c ≤ '9'.toUInt8 then some (c.toNat - '0'.toNat)
  else if 'A'.toUInt8 ≤ c ∧ c ≤ 'Z'.toUInt8 then some (c.toNat - ('A'.toNat - 10))
  else if 'a'.toUInt8 ≤ c ∧ c ≤ 'z'.toUInt8 then some (c.toNat - ('a'.toNat - 10))
  else none

/-- A number of the unsigned type of `w` bits, from an `int`. -/
def unsigned (w : ℕ) (v : ℤ) : ℕ := (v % 2 ^ w).toNat

/-- The `for` loop, from where `c` has been read: `acc`, `any` and `s` behind it. -/
def accumulate (w : ℕ) (m : Ram bits) (base : ℤ) (cutoff : ℕ) (cutlim : ℤ) (c : UInt8) (s acc : ℕ)
    (any : ℤ) : Option (ℕ × ℤ × ℕ) :=
  match digit c with
  | none => some (acc, any, s)
  | some d =>
      if (d : ℤ) ≥ base then some (acc, any, s)
      else
        let tooBig := any < 0 ∨ acc > cutoff ∨ acc = cutoff ∧ (d : ℤ) > cutlim
        let any := if tooBig then -1 else 1
        let acc := if tooBig then acc else (acc * unsigned w base % 2 ^ w + d) % 2 ^ w
        match h : m.load s with
        | none => none
        | some c => accumulate w m base cutoff cutlim c (s + 1) acc any
termination_by 2 ^ bits - s
decreasing_by exact Ram.left_lt h

/-- The body of the four functions over a type of `w` bits: `acc`, and what
`*endptr` becomes.  `limit neg` is both the first value of `cutoff` and what
`acc` becomes when the number does not fit. -/
def body (w : ℕ) (limit : Bool → ℕ) (m : Ram bits) (nptr : ℕ) (base : ℤ) : Option (ℕ × ℕ) := do
  let (c, s) ← skipSpaces m nptr
  let (neg, c, s) ← takeSign m c s
  let (base, c, s) ← takeBase m base c s
  let cutlim := ((limit neg % unsigned w base : ℕ) : ℤ).bmod (2 ^ 32)
  let cutoff := limit neg / unsigned w base
  let (acc, any, s) ← accumulate w m base cutoff cutlim c s 0 0
  let acc := if any < 0 then limit neg else if neg then (2 ^ w - acc) % 2 ^ w else acc
  return (acc, if any ≠ 0 then s - 1 else nptr)

/-- `LONG_MAX`, or `LONG_MIN` as an unsigned number. -/
def signedLimit (w : ℕ) (neg : Bool) : ℕ := if neg then 2 ^ (w - 1) else 2 ^ (w - 1) - 1

def signed (w : ℕ) (m : Ram bits) (nptr : ℕ) (base : ℤ) : Option (ℤ × ℕ) := do
  let (acc, endptr) ← body w (signedLimit w) m nptr base
  return ((acc : ℤ).bmod (2 ^ w), endptr)

end BaizeBoard.Strto

namespace BaizeBoard

variable {bits : ℕ}

def strtol (longBit : ℕ) : Ram bits → ℕ → ℤ → Option (ℤ × ℕ) := Strto.signed longBit

def strtoll : Ram bits → ℕ → ℤ → Option (ℤ × ℕ) := Strto.signed 64

def strtoul (longBit : ℕ) : Ram bits → ℕ → ℤ → Option (ℕ × ℕ) :=
  Strto.body longBit fun _ ↦ 2 ^ longBit - 1

def strtoull : Ram bits → ℕ → ℤ → Option (ℕ × ℕ) := Strto.body 64 fun _ ↦ 2 ^ 64 - 1

end BaizeBoard
