import BaizeBoard.Libc.Format

/-!
# `vprintf` as a transition system

`printf.c` scans its format with a `while` loop around a `switch` that its
`goto loop` re-enters.  `Vprintf.step` is one round of one of the loops: the
`while`, the `switch`, the `for (;;)` that reads a width, the `for` of
`string_print`.  Each round reads the one byte its pointer is at, so the bytes
a run examines are those its states point to.

`int` and `long long int` computations are exact here; they agree with C as
long as each value stays within its type, and with two's-complement negation.
-/

namespace BaizeBoard.Vprintf

/-- Which loop is about to test its next byte. -/
inductive Mode where
  | scan
  | directive
  | width
  | string (str : ℕ) (count : ℤ)
  | returned (result : ℤ)
  | fault (f : Fault)
  deriving DecidableEq

structure State where
  mode : Mode
  fmt : ℕ
  args : VaList
  lCount : ℤ
  padc : UInt8
  padn : ℤ
  count : ℤ
  out : List UInt8

/-- `l_count` and `padn` are set before their first use. -/
def start (fmt : ℕ) (args : VaList) : State :=
  { mode := .scan, fmt, args, lCount := 0, padc := 0, padn := 0, count := 0, out := [] }

def State.putchar (s : State) (c : UInt8) : State := { s with out := s.out ++ [c] }

/-- `string_print` of a string literal, its result added to `count`. -/
def State.stringPrint (s : State) (str : List UInt8) : State :=
  { s with out := s.out ++ str, count := s.count + str.length }

def State.subPadn (s : State) (k : ℤ) : State := { s with padn := s.padn - k }

/-- `break;` out of the `switch`, then `fmt++; continue;`. -/
def State.next (s : State) : State := { s with mode := .scan, fmt := s.fmt + 1 }

/-- `count += unsigned_num_print(unum, radix, padc, padn); break;` -/
def State.numPrint (s : State) (unum : BitVec 64) (radix : ℕ) : State :=
  match unsignedNumPrint s.out unum radix s.padc s.padn with
  | .ok (out, n) => { s with out, count := s.count + n }.next
  | .error f => { s with mode := .fault f }

/-- `va_arg(args, …)`, and what is done with it. -/
def State.vaArg (s : State) (k : State → BitVec 64 → State) : State :=
  k { s with args := s.args.tail } s.args.head

def State.signed (s : State) (arg : BitVec 64) : State :=
  let num := getNumVaArgs arg s.lCount
  if num < 0 then
    ((s.putchar '-'.toUInt8).subPadn 1).numPrint (BitVec.ofInt 64 (-num)) 10
  else s.numPrint (BitVec.ofInt 64 num) 10

def State.pointer (s : State) (arg : BitVec 64) : State :=
  if arg > 0 then ((s.stringPrint ['0'.toUInt8, 'x'.toUInt8]).subPadn 2).numPrint arg 16
  else s.numPrint arg 16

def State.unsigned (s : State) (radix : ℕ) (arg : BitVec 64) : State :=
  s.numPrint (getUnumVaArgs arg s.lCount) radix

/-- `assert(str != NULL)`, then the loop of `string_print`. -/
def State.string (asserts : Bool) (s : State) (arg : BitVec 64) : State :=
  if arg = 0 ∧ asserts then { s with mode := .fault .assertion }
  else { s with mode := .string arg.toNat 0 }

/-- The `switch (*fmt)`, on the byte `ch` it reads; `sizeof(size_t)` is 8. -/
def State.switch (asserts : Bool) (s : State) (ch : UInt8) : State :=
  if ch = '%'.toUInt8 then (s.putchar '%'.toUInt8).next
  else if ch = 'i'.toUInt8 ∨ ch = 'd'.toUInt8 then s.vaArg State.signed
  else if ch = 's'.toUInt8 then s.vaArg (State.string asserts)
  else if ch = 'p'.toUInt8 then s.vaArg State.pointer
  else if ch = 'x'.toUInt8 then s.vaArg (State.unsigned · 16)
  else if ch = 'z'.toUInt8 then { s with lCount := 2, fmt := s.fmt + 1 }
  else if ch = 'l'.toUInt8 then { s with lCount := s.lCount + 1, fmt := s.fmt + 1 }
  else if ch = 'u'.toUInt8 then s.vaArg (State.unsigned · 10)
  else if ch = '0'.toUInt8 then
    { s with padc := '0'.toUInt8, padn := 0, fmt := s.fmt + 1, mode := .width }
  else { s with mode := .returned (-1) }

def step (mem : Mem) (asserts : Bool) (s : State) : Option State :=
  match s.mode with
  | .scan =>
      if mem s.fmt = 0 then some { s with mode := .returned s.count }
      else
        let s := { s with lCount := 0, padn := 0 }
        if mem s.fmt = '%'.toUInt8 then some { s with mode := .directive, fmt := s.fmt + 1 }
        else some { s.putchar (mem s.fmt) with fmt := s.fmt + 1, count := s.count + 1 }
  | .directive => some (s.switch asserts (mem s.fmt))
  | .width =>
      let ch := mem s.fmt
      if ch < '0'.toUInt8 ∨ ch > '9'.toUInt8 then some { s with mode := .directive }
      else some { s with padn := s.padn * 10 + (ch.toNat - '0'.toNat : ℤ), fmt := s.fmt + 1 }
  | .string str count =>
      if mem str = 0 then some { s with count := s.count + count }.next
      else some { s.putchar (mem str) with mode := .string (str + 1) (count + 1) }
  | .returned _ => none
  | .fault _ => none

/-- A call of `vprintf` on the format at `fmt` returns `result`, having put the
bytes `out`. -/
def Returns (mem : Mem) (asserts : Bool) (fmt : ℕ) (args : VaList) (result : ℤ)
    (out : List UInt8) : Prop :=
  ∃ t ∈ StateTransition.eval (step mem asserts) (start fmt args),
    t.mode = .returned result ∧ t.out = out

theorem Returns.unique {mem : Mem} {asserts : Bool} {fmt : ℕ} {args : VaList}
    {r r' : ℤ} {out out' : List UInt8} (h : Returns mem asserts fmt args r out)
    (h' : Returns mem asserts fmt args r' out') : r = r' ∧ out = out' := by
  obtain ⟨t, ht, hmode, hout⟩ := h
  obtain ⟨t', ht', hmode', hout'⟩ := h'
  cases Part.mem_unique ht ht'
  exact ⟨Mode.returned.inj (hmode.symm.trans hmode'), hout.symm.trans hout'⟩

end BaizeBoard.Vprintf
