import BaizeBoard.Libc.VprintfRun

/-!
# `println!` of `platform/print.rs`

`write!` hands the text to `Printer::write_str` fragment by fragment.  Each
fragment is a slice, an address with a length, but `write_str` passes only its
address on to `printf("%s\0", …)`, whose loop ends at the next NUL.  The macro
puts one `\0` behind the whole text and none behind the fragments before it.
-/

namespace BaizeBoard.Print

/-- A `&str`: its pointer is never null. -/
structure Fragment where
  addr : BitVec 64
  len : ℕ
  addr_ne_zero : addr ≠ 0

def Fragment.bytes (mem : Mem) (s : Fragment) : List UInt8 :=
  (List.range s.len).map fun i ↦ mem (s.addr.toNat + i)

/-- The byte strings `b"%s\0"` and `b"\n\0"` of the macro. -/
structure Literals (mem : Mem) where
  format : ℕ
  newline : ℕ
  format_eq : CString mem format (ascii ['%', 's'])
  newline_eq : CString mem newline (ascii ['\n'])

variable {mem : Mem}

/-- `printf` is given the address, whatever stands behind its arguments. -/
def WriteStr (asserts : Bool) (lits : Literals mem) (s : Fragment) (out : List UInt8) : Prop :=
  ∃ result, ∀ beyond, Vprintf.Returns mem asserts lits.format (.cons s.addr beyond) result out

/-- The calls that one `println!` makes put `out`: one `write_str` for each
fragment, then `printf` of the newline. -/
def Println (asserts : Bool) (lits : Literals mem) : List Fragment → List UInt8 → Prop
  | [], out => ∃ result, ∀ beyond, Vprintf.Returns mem asserts lits.newline beyond result out
  | s :: frs, out =>
      ∃ front rest, WriteStr asserts lits s front ∧ Println asserts lits frs rest ∧
        out = front ++ rest

def StaysInside (asserts : Bool) (lits : Literals mem) (s : Fragment) : Prop :=
  ∀ beyond t, StateTransition.Reaches (Vprintf.step mem asserts)
      (Vprintf.start lits.format (.cons s.addr beyond)) t →
    ∀ p count, t.mode = .string p count → s.addr.toNat ≤ p ∧ p < s.addr.toNat + s.len

/-- The fragments that `write!(printer, "{}\0", …)` hands over for a text. -/
structure Framed (mem : Mem) (frs : List Fragment) (text : List UInt8) : Prop where
  bytes : frs.flatMap (Fragment.bytes mem) = text ++ [0]
  noNul : 0 ∉ text
  last : ∀ s ∈ frs.getLast?, 0 < s.len

structure Faithful (asserts : Bool) (lits : Literals mem) (frs : List Fragment)
    (text : List UInt8) : Prop where
  output : Println asserts lits frs (text ++ ascii ['\n'])
  inside : ∀ s ∈ frs, StaysInside asserts lits s

/-! ## Runs of `printf("%s\0", s)` -/

theorem getElem?_bytes (mem : Mem) (s : Fragment) {i : ℕ} (h : i < s.len) :
    (s.bytes mem)[i]? = some (mem (s.addr.toNat + i)) := by
  simp [Fragment.bytes, h]

theorem length_bytes (mem : Mem) (s : Fragment) : (s.bytes mem).length = s.len := by
  simp [Fragment.bytes]

theorem cString_of_forall {a : ℕ} {text : List UInt8} (hnoNul : 0 ∉ text)
    (h : ∀ i c, (text ++ [0])[i]? = some c → mem (a + i) = c) : CString mem a text := by
  induction text generalizing a with
  | nil => exact h 0 0 rfl
  | cons c text ih =>
      rw [List.mem_cons, not_or] at hnoNul
      refine ⟨h 0 c rfl, Ne.symm hnoNul.1, ih hnoNul.2 ?_⟩
      intro i d hd
      rw [add_assoc, add_comm 1]
      exact h (i + 1) d hd

theorem cString_of_bytes {s : Fragment} {text : List UInt8} (hbytes : s.bytes mem = text ++ [0])
    (hnoNul : 0 ∉ text) : CString mem s.addr.toNat text := by
  apply cString_of_forall hnoNul
  intro i c hc
  rw [← hbytes] at hc
  obtain ⟨hi, -⟩ := List.getElem?_eq_some_iff.mp hc
  rw [length_bytes] at hi
  rw [getElem?_bytes mem s hi] at hc
  exact Option.some.inj hc

theorem writeStr_of_cString (asserts : Bool) (lits : Literals mem) (s : Fragment)
    {str : List UInt8} (h : CString mem s.addr.toNat str) : WriteStr asserts lits s str := by
  have hvalid : ∀ a ∈ [Arg.str s.addr str], a.Valid mem := by
    intro a ha
    rw [List.mem_singleton.mp ha]
    exact ⟨s.addr_ne_zero, h⟩
  have hrun := @Vprintf.returns_fields mem asserts _ _ _ [.str str] lits.format_eq hvalid rfl
  exact ⟨_, fun beyond ↦ by simpa [Field.render, Arg.slot] using hrun beyond⟩

theorem println_nil (asserts : Bool) (lits : Literals mem) :
    Println asserts lits [] (ascii ['\n']) := by
  have hrun := @Vprintf.returns_fields mem asserts _ _ [] [.lit '\n'.toUInt8] lits.newline_eq
    (by simp) rfl
  exact ⟨_, hrun⟩

/-- Where a call of `printf("%s\0", s)` can be, when `text` stands at `s`. -/
def OnString (format : ℕ) (s : Fragment) (text : List UInt8) (t : Vprintf.State) : Prop :=
  match t.mode with
  | .scan => t.fmt = format ∧ t.args.head = s.addr ∨ t.fmt = format + 2
  | .directive => t.fmt = format + 1 ∧ t.args.head = s.addr
  | .width => False
  | .string p _ => t.fmt = format + 1 ∧ s.addr.toNat ≤ p ∧ p ≤ s.addr.toNat + text.length
  | .returned _ => True
  | .fault _ => True

theorem CString.end {a : ℕ} {text : List UInt8} (h : CString mem a text) :
    mem (a + text.length) = 0 := by
  induction text generalizing a with
  | nil => exact h
  | cons c text ih =>
      rw [List.length_cons, add_comm text.length, ← add_assoc]
      exact ih h.2.2

theorem onString_step {asserts : Bool} (lits : Literals mem) {s : Fragment} {text : List UInt8}
    (htext : CString mem s.addr.toNat text) {t u : Vprintf.State}
    (ht : OnString lits.format s text t) (hstep : Vprintf.step mem asserts t = some u) :
    OnString lits.format s text u := by
  obtain ⟨hpercent, -, hs, -, hend⟩ := lits.format_eq
  unfold OnString at ht
  cases hmode : t.mode with
  | scan =>
      rw [hmode] at ht
      rcases ht with ⟨hfmt, hargs⟩ | hfmt
      · have hstep' : Vprintf.step mem asserts t = some { t with
            lCount := 0, padn := 0, mode := .directive, fmt := t.fmt + 1 } := by
          simp only [Vprintf.step, hmode, hfmt, hpercent]
          rfl
        rw [hstep'] at hstep
        cases hstep
        exact ⟨by rw [hfmt], hargs⟩
      · have hz : mem t.fmt = 0 := by rw [hfmt]; exact hend
        simp only [Vprintf.step, hmode, hz, if_true] at hstep
        cases hstep
        trivial
  | directive =>
      rw [hmode] at ht
      obtain ⟨hfmt, hargs⟩ := ht
      have hstep' : Vprintf.step mem asserts t = some (t.vaArg (Vprintf.State.string asserts)) := by
        simp only [Vprintf.step, hmode, hfmt, hs]
        rfl
      rw [hstep', Vprintf.State.vaArg, hargs, Vprintf.State.string,
        if_neg (fun h ↦ s.addr_ne_zero h.1)] at hstep
      cases hstep
      exact ⟨hfmt, le_refl _, Nat.le_add_right _ _⟩
  | width =>
      rw [hmode] at ht
      exact ht.elim
  | string p count =>
      rw [hmode] at ht
      obtain ⟨hfmt, hlo, hhi⟩ := ht
      by_cases hz : mem p = 0
      · simp only [Vprintf.step, hmode, hz, if_true] at hstep
        cases hstep
        exact .inr (by simp [Vprintf.State.next, hfmt])
      · have hlt : p ≠ s.addr.toNat + text.length := by
          rintro rfl
          exact hz (CString.end htext)
        simp only [Vprintf.step, hmode, hz, if_false] at hstep
        cases hstep
        exact ⟨hfmt, by omega, by omega⟩
  | returned r => simp [Vprintf.step, hmode] at hstep
  | fault f => simp [Vprintf.step, hmode] at hstep

theorem staysInside_of_cString (asserts : Bool) (lits : Literals mem) {s : Fragment}
    {text : List UInt8} (htext : CString mem s.addr.toNat text) (hlen : text.length < s.len) :
    StaysInside asserts lits s := by
  intro beyond t hreach p count hmode
  have hon : OnString lits.format s text t :=
    StateTransition.Reaches.invariant (fun _ _ ↦ onString_step lits htext) hreach
      (.inl ⟨rfl, rfl⟩)
  unfold OnString at hon
  rw [hmode] at hon
  exact ⟨hon.2.1, by omega⟩

def inDirective (lits : Literals mem) (args : VaList) : Vprintf.State :=
  { Vprintf.start lits.format args with mode := .directive, fmt := lits.format + 1 }

/-- Without a NUL in the fragment the loop goes on to the byte behind it. -/
theorem reaches_behind (asserts : Bool) (lits : Literals mem) (s : Fragment) (k : ℕ)
    (hk : ∀ i < k, mem (s.addr.toNat + i) ≠ 0) (beyond : VaList) :
    ∃ t count, StateTransition.Reaches (Vprintf.step mem asserts)
        (Vprintf.start lits.format (.cons s.addr beyond)) t ∧
      t.mode = .string (s.addr.toNat + k) count := by
  induction k with
  | zero =>
      obtain ⟨hpercent, -, hs, -⟩ := lits.format_eq
      have hscan : Vprintf.step mem asserts (Vprintf.start lits.format (.cons s.addr beyond)) =
          some (inDirective lits (.cons s.addr beyond)) := by
        simp only [Vprintf.step, Vprintf.start, hpercent]
        rfl
      have hswitch : Vprintf.step mem asserts (inDirective lits (.cons s.addr beyond)) =
          some { inDirective lits beyond with mode := .string s.addr.toNat 0 } := by
        have hnull : ¬ (s.addr = 0 ∧ asserts = true) := fun h ↦ s.addr_ne_zero h.1
        have hcase : ∀ t : Vprintf.State,
            t.switch asserts 's'.toUInt8 = t.vaArg (Vprintf.State.string asserts) := fun _ ↦ rfl
        simp only [Vprintf.step, inDirective, hs, hcase, Vprintf.State.vaArg, Vprintf.start,
          Vprintf.State.string, Stream'.head_cons, Stream'.tail_cons, hnull, if_false]
      exact ⟨_, 0, (StateTransition.reaches_of_step hscan).tail hswitch, rfl⟩
  | succ k ih =>
      obtain ⟨t, count, hreach, hmode⟩ := ih fun i hi ↦ hk i (by omega)
      have hne := hk k (by omega)
      have hstep : Vprintf.step mem asserts t = some { t.putchar (mem (s.addr.toNat + k)) with
          mode := .string (s.addr.toNat + k + 1) (count + 1) } := by
        simp only [Vprintf.step, hmode, hne, if_false]
      exact ⟨_, count + 1, hreach.tail hstep, rfl⟩

theorem not_staysInside (asserts : Bool) (lits : Literals mem) {s : Fragment}
    (h : 0 ∉ s.bytes mem) : ¬ StaysInside asserts lits s := by
  intro hinside
  obtain ⟨t, count, hreach, hmode⟩ := reaches_behind asserts lits s s.len (by
    intro i hi hz
    have hget := getElem?_bytes mem s hi
    rw [hz] at hget
    exact h (List.mem_of_getElem? hget)) (.const 0)
  exact absurd (hinside _ t hreach _ _ hmode).2 (lt_irrefl _)

/-! ## When the output is faithful -/

theorem Framed.notMem_head {s : Fragment} {frs : List Fragment} {text : List UInt8}
    (h : Framed mem (s :: frs) text) (hfrs : frs ≠ []) : 0 ∉ s.bytes mem := by
  obtain ⟨hbytes, hnoNul, hlast⟩ := h
  obtain ⟨front, last, rfl⟩ : ∃ front last, frs = front ++ [last] :=
    ⟨_, _, (List.dropLast_append_getLast hfrs).symm⟩
  have hpos : 0 < (last.bytes mem).length := by
    rw [length_bytes]
    exact hlast last (by rw [← List.cons_append, List.getLast?_concat]; rfl)
  obtain ⟨rest, c, hrest⟩ : ∃ rest c, last.bytes mem = rest ++ [c] :=
    ⟨_, _, (List.dropLast_append_getLast (List.length_pos_iff.mp hpos)).symm⟩
  rw [List.flatMap_cons, List.flatMap_append, List.flatMap_singleton, hrest, ← List.append_assoc,
    ← List.append_assoc] at hbytes
  have htext := (List.append_inj' hbytes rfl).1
  intro hmem
  exact hnoNul (htext ▸ List.mem_append_left _ (List.mem_append_left _ hmem))

/-- A `println!` whose text comes in one fragment is faithful, and no other is. -/
theorem println_faithful_iff (mem : Mem) (asserts : Bool) (lits : Literals mem)
    (frs : List Fragment) (text : List UInt8) (hframed : Framed mem frs text) :
    Faithful asserts lits frs text ↔ frs.length = 1 := by
  cases frs with
  | nil => exact absurd hframed.bytes (by simp)
  | cons s frs =>
      constructor
      · intro h
        by_contra hlen
        have hfrs : frs ≠ [] := by
          rintro rfl
          exact hlen rfl
        exact not_staysInside asserts lits (hframed.notMem_head hfrs)
          (h.inside s List.mem_cons_self)
      · intro hlen
        obtain rfl : frs = [] := by simpa using hlen
        have hbytes : s.bytes mem = text ++ [0] := by simpa using hframed.bytes
        have htext := cString_of_bytes hbytes hframed.noNul
        refine ⟨⟨text, _, writeStr_of_cString asserts lits s htext,
          println_nil asserts lits, rfl⟩, ?_⟩
        intro s' hs'
        rw [List.mem_singleton.mp hs']
        apply staysInside_of_cString asserts lits htext
        rw [← length_bytes mem s, hbytes]
        simp

theorem println_faithful_iff_example :
    let mem := rodata 16 (ascii ['%', 's'] ++ 0 :: ascii ['\n'] ++ 0 :: ascii ['o', 'k'] ++ [0])
    let lits : Literals mem := ⟨16, 19, by decide, by decide⟩
    let frs : List Fragment := [⟨21, 3, by decide⟩]
    Faithful true lits frs (ascii ['o', 'k']) ↔ frs.length = 1 :=
  println_faithful_iff _ true _ _ _ ⟨by decide, by decide, by simp⟩

/-- The fragments `cnt `, `7` and `\0` of `println!("cnt {}", cnt)`, where the variable `cnt`
holds 7.  The digits are in a buffer of their own with a `?` behind them, and the `?` is
printed as well. -/
theorem not_faithful_cnt :
    let mem := rodata 16 (ascii ['%', 's'] ++ 0 :: ascii ['\n'] ++ 0 ::
      ascii ['c', 'n', 't', ' '] ++ 0 :: ascii ['7', '?'] ++ [0])
    let lits : Literals mem := ⟨16, 19, by decide, by decide⟩
    let frs : List Fragment := [⟨21, 4, by decide⟩, ⟨26, 1, by decide⟩, ⟨25, 1, by decide⟩]
    let text := ascii ['c', 'n', 't', ' ', '7']
    Framed mem frs text ∧ Println true lits frs (text ++ ascii ['?', '\n']) ∧
      ¬ Faithful true lits frs text := by
  intro mem lits frs text
  refine ⟨⟨by decide, by decide, by simp [frs]⟩, ?_, ?_⟩
  · refine ⟨ascii ['c', 'n', 't', ' '], ascii ['7', '?', '\n'],
      writeStr_of_cString true lits _ (by decide), ?_, rfl⟩
    refine ⟨ascii ['7', '?'], ascii ['\n'], writeStr_of_cString true lits _ (by decide), ?_, rfl⟩
    exact ⟨[], _, writeStr_of_cString true lits _ (by decide), println_nil true lits, rfl⟩
  · intro h
    exact not_staysInside true lits (s := ⟨21, 4, by decide⟩) (by decide)
      (h.inside _ List.mem_cons_self)

end BaizeBoard.Print
