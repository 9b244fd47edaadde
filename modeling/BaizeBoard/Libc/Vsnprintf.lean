import BaizeBoard.Libc.Format

/-!
# `vsnprintf` as a transition system

`snprintf.c` has its own scanner, built like the one of `printf.c`, with
widths on either side and every character stored through
`CHECK_AND_PUT_CHAR`.  `Vsnprintf.step` is one round of one of its loops.  The
size `n` is the one left after the entry of the function has reserved the
terminator.

`plat_panic_handler()` and `ERROR()` are defined as nothing, so an unsupported
specifier is skipped unless `assert` is compiled in.  The `int` variables wrap
where a value goes over their bounds.
-/

namespace BaizeBoard.Vsnprintf

inductive Mode where
  | scan
  | directive
  | width
  | string (str : ℕ)
  | finished
  | fault (f : Fault)
  deriving DecidableEq

structure State where
  mode : Mode
  fmt : ℕ
  args : VaList
  padc : UInt8
  padn : ℤ
  left : Bool
  capitalise : Bool
  lCount : ℕ
  buf : Buf

def State.put (n : ℕ) (s : State) (c : UInt8) : State :=
  { s with buf := checkAndPutChar n s.buf c }

def State.stringPrint (n : ℕ) (s : State) (str : List UInt8) : State :=
  { s with buf := Vsnprintf.stringPrint n s.buf str }

def State.subPadn (s : State) (k : ℤ) : State := { s with padn := toInt32 (s.padn - k) }

/-- `break;` out of the `switch`, then `fmt++; continue;`. -/
def State.next (s : State) : State := { s with mode := .scan, fmt := s.fmt + 1 }

/-- `unsigned_num_print(&s, n, &chars_printed, unum, radix, padc, padn, capitalise); break;` -/
def State.numPrint (asserts : Bool) (n : ℕ) (s : State) (unum : BitVec 64) (radix : ℕ)
    (capitalise : Bool) : State :=
  match unsignedNumPrint asserts n s.buf unum radix s.padc s.padn capitalise with
  | .ok buf => { s with buf }.next
  | .error f => { s with mode := .fault f }

/-- `va_arg(args, …)`, and what is done with it. -/
def State.vaArg (s : State) (k : State → BitVec 64 → State) : State :=
  k { s with args := s.args.tail } s.args.head

/-- `(unsigned int)v`, widened to `unsigned long long int`. -/
def toUInt32 (v : ℤ) : BitVec 64 := (BitVec.ofInt 32 v).setWidth 64

/-- `num` is an `int`: whatever was fetched is cut to 32 bits. -/
def State.signed (asserts : Bool) (n : ℕ) (s : State) (arg : BitVec 64) : State :=
  let num := toInt32 (getNumVaArgs arg s.lCount)
  if num < 0 then (s.put n '-'.toUInt8).numPrint asserts n (toUInt32 (-num)) 10 false
  else s.numPrint asserts n (toUInt32 num) 10 false

def State.pointer (asserts : Bool) (n : ℕ) (s : State) (arg : BitVec 64) : State :=
  if arg > 0 then
    ((s.stringPrint n ['0'.toUInt8, 'x'.toUInt8]).subPadn 2).numPrint asserts n arg 16 false
  else s.numPrint asserts n arg 16 false

def State.unsigned (asserts : Bool) (n : ℕ) (s : State) (radix : ℕ) (capitalise : Bool)
    (arg : BitVec 64) : State :=
  s.numPrint asserts n (getUnumVaArgs arg s.lCount) radix capitalise

/-- The `switch (*fmt)`, on the byte `ch` it reads. -/
def State.switch (asserts : Bool) (n : ℕ) (s : State) (ch : UInt8) : State :=
  if ch = '%'.toUInt8 then (s.put n '%'.toUInt8).next
  else if isDigit ch then
    { s with
      padc := if ch = '0'.toUInt8 then '0'.toUInt8 else ' '.toUInt8
      padn := 0
      mode := .width }
  else if ch = '-'.toUInt8 then { s with left := true, fmt := s.fmt + 1 }
  else if ch = 'i'.toUInt8 ∨ ch = 'd'.toUInt8 then s.vaArg (State.signed asserts n)
  else if ch = 's'.toUInt8 then s.vaArg fun s arg ↦ { s with mode := .string arg.toNat }
  else if ch = 'u'.toUInt8 then s.vaArg (State.unsigned asserts n · 10 false)
  else if ch = 'z'.toUInt8 then { s with lCount := 1, fmt := s.fmt + 1 }
  else if ch = 'l'.toUInt8 then
    { s with lCount := (s.lCount + 1) % 2 ^ 32, fmt := s.fmt + 1 }
  else if ch = 'p'.toUInt8 then s.vaArg (State.pointer asserts n)
  else if ch = 'X'.toUInt8 then
    { s with capitalise := true }.vaArg fun s ↦ s.unsigned asserts n 16 s.capitalise
  else if ch = 'x'.toUInt8 then s.vaArg fun s ↦ s.unsigned asserts n 16 s.capitalise
  else if asserts then { s with mode := .fault .assertion }
  else s.next

def step (mem : Mem) (asserts : Bool) (n : ℕ) (s : State) : Option State :=
  match s.mode with
  | .scan =>
      if mem s.fmt = 0 then some { s with mode := .finished }
      else
        let s := { s with left := false, padc := 0, padn := 0, capitalise := false, lCount := 0 }
        if mem s.fmt = '%'.toUInt8 then some { s with mode := .directive, fmt := s.fmt + 1 }
        else some (s.put n (mem s.fmt)).next
  | .directive => some (s.switch asserts n (mem s.fmt))
  | .width =>
      let ch := mem s.fmt
      if isDigit ch then
        let padn := toInt32 (s.padn * 10 + (ch.toNat - '0'.toNat : ℤ))
        some { s with padn, fmt := s.fmt + 1 }
      else some { s with padn := if s.left then toInt32 (-s.padn) else s.padn, mode := .directive }
  | .string str =>
      if mem str = 0 then some s.next
      else some { s.put n (mem str) with mode := .string (str + 1) }
  | .finished => none
  | .fault _ => none

/-- The buffer after the entry of `vsnprintf`, and the size it goes on with:
a buffer of one byte gets its terminator at once and counts as full. -/
def enter : ℕ → ℕ × Buf
  | 0 => (0, ⟨0, 0, []⟩)
  | 1 => (0, Buf.store ⟨0, 0, []⟩ 0)
  | n + 2 => (n + 1, ⟨0, 0, []⟩)

def leave (n : ℕ) (b : Buf) : Buf := if n > 0 then b.store 0 else b

def Buf.result (b : Buf) : ℤ := (b.charsPrinted : ℤ).bmod (2 ^ 32)

def start (fmt : ℕ) (args : VaList) (buf : Buf) : State :=
  { mode := .scan, fmt, args, padc := 0, padn := 0, left := false, capitalise := false,
    lCount := 0, buf }

/-- A call of `vsnprintf` with a buffer of `n` bytes returns `result`, having
made the stores `writes`. -/
def Returns (mem : Mem) (asserts : Bool) (n : ℕ) (fmt : ℕ) (args : VaList)
    (result : ℤ) (writes : List (ℕ × UInt8)) : Prop :=
  ∃ t ∈ StateTransition.eval (step mem asserts (enter n).1) (start fmt args (enter n).2),
    t.mode = .finished ∧ t.buf.result = result ∧ (leave (enter n).1 t.buf).writes = writes

theorem Returns.unique {mem : Mem} {asserts : Bool} {n fmt : ℕ} {args : VaList}
    {r r' : ℤ} {writes writes' : List (ℕ × UInt8)} (h : Returns mem asserts n fmt args r writes)
    (h' : Returns mem asserts n fmt args r' writes') : r = r' ∧ writes = writes' := by
  obtain ⟨t, ht, -, hr, hw⟩ := h
  obtain ⟨t', ht', -, hr', hw'⟩ := h'
  cases Part.mem_unique ht ht'
  exact ⟨hr.symm.trans hr', hw.symm.trans hw'⟩

end BaizeBoard.Vsnprintf
