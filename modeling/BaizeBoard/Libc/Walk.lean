import BaizeBoard.Library.Transition
import BaizeBoard.Libc.Format
import Mathlib.Data.Prod.Lex
import Mathlib.Order.Lattice.Nat

/-!
# The walk of a formatter over its format

Where the two formatters read next depends on the bytes they point at, on the
slots they have not fetched and on whether `assert` is compiled in, and on
nothing else of their states.  `move` is one round of a loop as far as these go.

`Follows` ties a place of the walk to the rest of the format in front of it.
Every round keeps it but one: the round in which `vsnprintf` without assertions
skips the terminating NUL as an unsupported specifier.
-/

namespace BaizeBoard

inductive Kind where
  | scan
  | directive
  | width
  | string (str : ℕ)
  | halted
  deriving DecidableEq

/-- The rounds whose test is on `*fmt`. -/
def Kind.Examines : Kind → Prop
  | .scan | .directive | .width => True
  | .string _ | .halted => False

structure Pos where
  kind : Kind
  fmt : ℕ
  args : VaList

namespace Pos

def next (p : Pos) : Pos := { p with kind := .scan, fmt := p.fmt + 1 }

def halt (p : Pos) : Pos := { p with kind := .halted }

def vaArg (p : Pos) (k : Pos → BitVec 64 → Pos) : Pos :=
  k { p with args := p.args.tail } p.args.head

/-- `vprintf` asserts that a `%s` argument is not null. -/
def string (D : Dialect) (asserts : Bool) (p : Pos) (arg : BitVec 64) : Pos :=
  if D = .printf ∧ arg = 0 ∧ asserts then p.halt else { p with kind := .string arg.toNat }

/-- Only `vsnprintf` goes on behind a specifier that it does not know. -/
def unsupported (D : Dialect) (asserts : Bool) (p : Pos) : Pos :=
  if D = .snprintf ∧ asserts = false then p.next else p.halt

def switch (D : Dialect) (asserts : Bool) (p : Pos) (c : UInt8) : Pos :=
  if D.opensWidth c then
    { p with kind := .width, fmt := if D = .printf then p.fmt + 1 else p.fmt }
  else if (D.opt c).isSome then { p with fmt := p.fmt + 1 }
  else match D.conv c with
    | some .percent => p.next
    | some .s => p.vaArg (string D asserts)
    | some (.num _) => p.vaArg fun p _ ↦ p.next
    | none => p.unsupported D asserts

end Pos

def move (D : Dialect) (asserts : Bool) (mem : Mem) (p : Pos) : Option Pos :=
  match p.kind with
  | .scan =>
      if mem p.fmt = 0 then some p.halt
      else if mem p.fmt = '%'.toUInt8 then some { p with kind := .directive, fmt := p.fmt + 1 }
      else some p.next
  | .directive => some (p.switch D asserts (mem p.fmt))
  | .width =>
      if isDigit (mem p.fmt) then some { p with fmt := p.fmt + 1 }
      else some { p with kind := .directive }
  | .string str =>
      if mem str = 0 then some p.next else some { p with kind := .string (str + 1) }
  | .halted => none

theorem fmt_le_switch (D : Dialect) (asserts : Bool) (p : Pos) (c : UInt8) :
    p.fmt ≤ (p.switch D asserts c).fmt := by
  have hnext : ∀ args, p.fmt ≤ { p with args }.next.fmt := fun _ ↦ Nat.le_succ _
  unfold Pos.switch
  split
  · simp only
    split <;> omega
  · split
    · exact Nat.le_succ _
    · split
      · exact hnext p.args
      · unfold Pos.vaArg Pos.string
        split <;> exact le_rfl
      · exact hnext p.args.tail
      · unfold Pos.unsupported
        split
        · exact hnext p.args
        · exact le_rfl

/-- The pointer into the format only moves on. -/
theorem fmt_le_move {D : Dialect} {asserts : Bool} {mem : Mem} {p q : Pos}
    (h : move D asserts mem p = some q) : p.fmt ≤ q.fmt := by
  unfold move at h
  split at h
  · split at h
    · cases h
      exact le_rfl
    · split at h <;> cases h <;> exact Nat.le_succ _
  · cases h
    exact fmt_le_switch D asserts p _
  · split at h <;> cases h
    · exact Nat.le_succ _
    · exact le_rfl
  · split at h <;> cases h
    · exact Nat.le_succ _
    · exact le_rfl
  · cases h

/-! ## Formats that end inside a directive -/

/-- Flags, digits and modifiers keep the scan inside its directive. -/
def Dialect.inside (D : Dialect) (c : UInt8) : Bool := isDigit c || (D.opt c).isSome

def endsInDirective (D : Dialect) : Bool → List UInt8 → Bool
  | inside, [] => inside
  | false, c :: cs => endsInDirective D (c = '%'.toUInt8) cs
  | true, c :: cs => endsInDirective D (D.inside c) cs

def Terminated (mem : Mem) (str : ℕ) : Prop := ∃ s, CString mem str s

/-- Every `%s` finds a C string. -/
def Served (D : Dialect) (mem : Mem) : Bool → List UInt8 → VaList → Prop
  | _, [], _ => True
  | false, c :: cs, args => Served D mem (c = '%'.toUInt8) cs args
  | true, c :: cs, args =>
      if D.inside c then Served D mem true cs args
      else match D.conv c with
        | some .s => Terminated mem args.head.toNat ∧ Served D mem false cs args.tail
        | some (.num _) => Served D mem false cs args.tail
        | some .percent | none => Served D mem false cs args

theorem terminated_succ {mem : Mem} {str : ℕ} (hne : mem str ≠ 0) :
    Terminated mem str ↔ Terminated mem (str + 1) := by
  constructor
  · rintro ⟨s, hs⟩
    cases s with
    | nil => exact absurd hs hne
    | cons c s => exact ⟨s, hs.2.2⟩
  · rintro ⟨s, hs⟩
    exact ⟨mem str :: s, rfl, hne, hs⟩

/-! ## One round -/

/-- The rest `cs` of the format stands at `fmt`, and `stop` is where its NUL is. -/
structure Ahead (D : Dialect) (mem : Mem) (stop : ℕ) (ends inside : Bool) (fmt : ℕ)
    (cs : List UInt8) : Prop where
  here : CString mem fmt cs
  length : fmt + cs.length = stop
  ends : endsInDirective D inside cs = ends

/-- `ends` and `served` are what the walk had in front of it when it began. -/
def Follows (D : Dialect) (asserts : Bool) (mem : Mem) (stop : ℕ) (ends : Bool) (served : Prop)
    (p : Pos) : Prop :=
  match p.kind with
  | .scan => ∃ cs, Ahead D mem stop ends false p.fmt cs ∧ (Served D mem false cs p.args ↔ served)
  | .directive | .width =>
      ∃ cs, Ahead D mem stop ends true p.fmt cs ∧ (Served D mem true cs p.args ↔ served)
  | .string str =>
      ∃ cs, Ahead D mem stop ends false (p.fmt + 1) cs ∧
        (Terminated mem str ∧ Served D mem false cs p.args ↔ served)
  | .halted => D = .snprintf → asserts = false → ¬ (ends = true ∧ served)

variable {D : Dialect} {asserts : Bool} {mem : Mem} {stop : ℕ} {ends : Bool} {served : Prop}

theorem inside_of_opensWidth {c : UInt8} (h : D.opensWidth c = true) : D.inside c = true := by
  simp [Dialect.inside, digit_of_opensWidth h]

theorem conv_digit {c : UInt8} (h : isDigit c = true) : D.conv c = none := by
  cases hconv : D.conv c with
  | none => rfl
  | some k =>
      obtain rfl := char_conv hconv
      cases (isDigit_char k).symm.trans h

theorem Ahead.tail {inside : Bool} {fmt : ℕ} {c : UInt8} {cs : List UInt8}
    (h : Ahead D mem stop ends inside fmt (c :: cs)) :
    Ahead D mem stop ends (if inside then D.inside c else c = '%'.toUInt8) (fmt + 1) cs := by
  refine ⟨h.here.2.2, ?_, ?_⟩
  · have hlength := h.length
    rw [List.length_cons] at hlength
    omega
  · have hends := h.ends
    cases inside <;> simpa [endsInDirective] using hends

theorem served_inside {c : UInt8} (hc : D.inside c = true) (cs : List UInt8)
    (args : VaList) : Served D mem true (c :: cs) args = Served D mem true cs args := by
  rw [Served.eq_def]
  simp only [hc, if_true]

theorem served_specifier {c : UInt8} (hc : D.inside c = false) (cs : List UInt8)
    (args : VaList) :
    Served D mem true (c :: cs) args =
      match D.conv c with
      | some .s => Terminated mem args.head.toNat ∧ Served D mem false cs args.tail
      | some (.num _) => Served D mem false cs args.tail
      | some .percent | none => Served D mem false cs args := by
  rw [Served.eq_def]
  simp only [hc, Bool.false_eq_true, if_false]

/-- A byte of a directive that the scan reads on from. -/
theorem follows_inside {p q : Pos} {c : UInt8} {cs : List UInt8}
    (hahead : Ahead D mem stop ends true p.fmt (c :: cs))
    (hserved : Served D mem true (c :: cs) p.args ↔ served) (hc : D.inside c = true)
    (hkind : q.kind = .directive ∨ q.kind = .width) (hfmt : q.fmt = p.fmt + 1)
    (hargs : q.args = p.args) : Follows D asserts mem stop ends served q := by
  have htail := hahead.tail
  rw [if_pos rfl, hc] at htail
  rw [served_inside hc] at hserved
  rcases hkind with hkind | hkind <;>
  · simp only [Follows, hkind, hfmt, hargs]
    exact ⟨cs, htail, hserved⟩

/-- A specifier is behind the scan. -/
theorem follows_next {p : Pos} {c : UInt8} {cs : List UInt8}
    (hahead : Ahead D mem stop ends true p.fmt (c :: cs)) (hc : D.inside c = false)
    {args : VaList} (hserved : Served D mem false cs args ↔ served) :
    Follows D asserts mem stop ends served { p with args }.next := by
  have htail := hahead.tail
  rw [if_pos rfl, hc] at htail
  exact ⟨cs, htail, hserved⟩

theorem follows_string {p : Pos} {c : UInt8} {cs : List UInt8} {arg : BitVec 64}
    {args : VaList} (hahead : Ahead D mem stop ends true p.fmt (c :: cs))
    (hc : D.inside c = false)
    (hserved : Terminated mem arg.toNat ∧ Served D mem false cs args ↔ served) :
    Follows D asserts mem stop ends served (Pos.string D asserts { p with args } arg) := by
  have htail := hahead.tail
  rw [if_pos rfl, hc] at htail
  unfold Pos.string
  split
  · rename_i h
    rintro hD
    rw [h.1] at hD
    cases hD
  · exact ⟨cs, htail, hserved⟩

theorem follows_unsupported {p : Pos} {c : UInt8} {cs : List UInt8}
    (hahead : Ahead D mem stop ends true p.fmt (c :: cs)) (hc : D.inside c = false)
    (hserved : Served D mem false cs p.args ↔ served) :
    Follows D asserts mem stop ends served (p.unsupported D asserts) := by
  unfold Pos.unsupported
  split
  · exact follows_next hahead hc hserved
  · rename_i h
    intro hD hasserts
    exact absurd ⟨hD, hasserts⟩ h

/-- The `switch` on a byte of the format. -/
theorem follows_switch {p : Pos} (hkind : p.kind = .directive) {c : UInt8} {cs : List UInt8}
    (hahead : Ahead D mem stop ends true p.fmt (c :: cs))
    (hserved : Served D mem true (c :: cs) p.args ↔ served) :
    Follows D asserts mem stop ends served (p.switch D asserts c) := by
  unfold Pos.switch
  by_cases hwidth : D.opensWidth c = true
  · rw [if_pos hwidth]
    cases D with
    | printf =>
        exact follows_inside hahead hserved (inside_of_opensWidth hwidth) (.inr rfl) rfl rfl
    | snprintf => exact ⟨c :: cs, hahead, hserved⟩
  · rw [if_neg hwidth]
    by_cases hopt : (D.opt c).isSome = true
    · rw [if_pos hopt]
      have hc : D.inside c = true := by simp [Dialect.inside, hopt]
      exact follows_inside hahead hserved hc (.inl hkind) rfl rfl
    · rw [if_neg hopt]
      by_cases hc : D.inside c = true
      · have hdigit : isDigit c = true := by simpa [Dialect.inside, hopt] using hc
        have hD : D = .printf := by
          cases D with
          | printf => rfl
          | snprintf => exact absurd hdigit hwidth
        rw [conv_digit hdigit]
        subst hD
        intro hD
        cases hD
      · have hc : D.inside c = false := by simpa using hc
        rw [served_specifier hc] at hserved
        cases hconv : D.conv c with
        | none =>
            rw [hconv] at hserved
            exact follows_unsupported hahead hc hserved
        | some k =>
            rw [hconv] at hserved
            cases k with
            | percent => exact follows_next hahead hc hserved
            | s => exact follows_string hahead hc hserved
            | num conv => exact follows_next hahead hc hserved

theorem switch_nul (D : Dialect) (asserts : Bool) (p : Pos) :
    p.switch D asserts 0 = p.unsupported D asserts := by
  cases D <;> rfl

/-- The terminating NUL has been skipped as an unsupported specifier. -/
structure Escaped (D : Dialect) (asserts : Bool) (stop : ℕ) (ends : Bool) (served : Prop)
    (q : Pos) : Prop where
  dialect : D = .snprintf
  asserts : asserts = false
  ends : ends = true
  served : served
  kind : q.kind = .scan
  fmt : q.fmt = stop + 1

theorem follows_scan {fmt : ℕ} {args : VaList} {q : Pos} {cs : List UInt8}
    (hahead : Ahead D mem stop ends false fmt cs)
    (hserved : Served D mem false cs args ↔ served)
    (hmove : move D asserts mem ⟨.scan, fmt, args⟩ = some q) :
    Follows D asserts mem stop ends served q := by
  simp only [move] at hmove
  cases cs with
  | nil =>
      have hnul : mem fmt = 0 := hahead.here
      rw [if_pos hnul] at hmove
      cases hmove
      intro _ _ hends
      rw [← hahead.ends] at hends
      exact Bool.false_ne_true hends.1
  | cons c cs =>
      obtain ⟨hc, hc0, -⟩ := hahead.here
      have htail := hahead.tail
      rw [Served] at hserved
      rw [hc, if_neg hc0] at hmove
      by_cases hpercent : c = '%'.toUInt8
      · rw [if_pos hpercent] at hmove
        cases hmove
        simp only [hpercent, decide_true] at hserved htail
        exact ⟨cs, htail, hserved⟩
      · rw [if_neg hpercent] at hmove
        cases hmove
        simp only [hpercent, decide_false] at hserved htail
        exact ⟨cs, htail, hserved⟩

theorem follows_directive {fmt : ℕ} {args : VaList} {q : Pos} {cs : List UInt8}
    (hahead : Ahead D mem stop ends true fmt cs) (hserved : Served D mem true cs args ↔ served)
    (hmove : move D asserts mem ⟨.directive, fmt, args⟩ = some q) :
    Follows D asserts mem stop ends served q ∨ Escaped D asserts stop ends served q := by
  have hq : Pos.switch D asserts ⟨.directive, fmt, args⟩ (mem fmt) = q := Option.some.inj hmove
  subst hq
  cases cs with
  | nil =>
      have hnul : mem fmt = 0 := hahead.here
      have hfmt : fmt = stop := hahead.length
      rw [hnul, switch_nul, Pos.unsupported]
      split
      · rename_i h
        have hall : Served D mem true [] args := by
          rw [Served]
          trivial
        exact .inr ⟨h.1, h.2, hahead.ends.symm, hserved.mp hall, rfl, congrArg (· + 1) hfmt⟩
      · rename_i h
        refine .inl ?_
        intro hD hasserts
        exact absurd ⟨hD, hasserts⟩ h
  | cons c cs =>
      rw [hahead.here.1]
      exact .inl (follows_switch rfl hahead hserved)

theorem follows_width {fmt : ℕ} {args : VaList} {q : Pos} {cs : List UInt8}
    (hahead : Ahead D mem stop ends true fmt cs) (hserved : Served D mem true cs args ↔ served)
    (hmove : move D asserts mem ⟨.width, fmt, args⟩ = some q) :
    Follows D asserts mem stop ends served q := by
  simp only [move] at hmove
  split at hmove
  · rename_i hdigit
    cases hmove
    cases cs with
    | nil =>
        rw [show mem fmt = 0 from hahead.here] at hdigit
        exact absurd hdigit (by decide)
    | cons c cs =>
        rw [hahead.here.1] at hdigit
        exact follows_inside (p := ⟨.width, fmt, args⟩) hahead hserved
          (by simp [Dialect.inside, hdigit]) (.inr rfl) rfl rfl
  · cases hmove
    exact ⟨cs, hahead, hserved⟩

theorem follows_string_step {str fmt : ℕ} {args : VaList} {q : Pos} {cs : List UInt8}
    (hahead : Ahead D mem stop ends false (fmt + 1) cs)
    (hserved : Terminated mem str ∧ Served D mem false cs args ↔ served)
    (hmove : move D asserts mem ⟨.string str, fmt, args⟩ = some q) :
    Follows D asserts mem stop ends served q := by
  simp only [move] at hmove
  split at hmove
  · rename_i hnul
    cases hmove
    have hterm : Terminated mem str := ⟨[], hnul⟩
    rw [and_iff_right hterm] at hserved
    exact ⟨cs, hahead, hserved⟩
  · rename_i hne
    cases hmove
    rw [terminated_succ hne] at hserved
    exact ⟨cs, hahead, hserved⟩

theorem follows_move {p q : Pos} (h : Follows D asserts mem stop ends served p)
    (hmove : move D asserts mem p = some q) :
    Follows D asserts mem stop ends served q ∨ Escaped D asserts stop ends served q := by
  obtain ⟨kind, fmt, args⟩ := p
  cases kind with
  | scan =>
      obtain ⟨cs, hahead, hserved⟩ := h
      exact .inl (follows_scan hahead hserved hmove)
  | directive =>
      obtain ⟨cs, hahead, hserved⟩ := h
      exact follows_directive hahead hserved hmove
  | width =>
      obtain ⟨cs, hahead, hserved⟩ := h
      exact .inl (follows_width hahead hserved hmove)
  | string str =>
      obtain ⟨cs, hahead, hserved⟩ := h
      exact .inl (follows_string_step hahead hserved hmove)
  | halted => cases hmove

theorem Follows.fmt_le {p : Pos} (h : Follows D asserts mem stop ends served p)
    (hkind : p.kind ≠ .halted) : p.fmt ≤ stop := by
  obtain ⟨kind, fmt, args⟩ := p
  cases kind with
  | scan | directive | width | string str =>
      obtain ⟨cs, hahead, -⟩ := h
      have hlength := hahead.length
      simp only at hlength ⊢
      omega
  | halted => exact absurd rfl hkind

/-! ## Walks end -/

/-- How far the NUL of a string is. -/
noncomputable def distance (mem : Mem) (str : ℕ) : ℕ := sInf {k | mem (str + k) = 0}

theorem exists_nul {mem : Mem} {str : ℕ} {s : List UInt8} (h : CString mem str s) :
    mem (str + s.length) = 0 := by
  induction s generalizing str with
  | nil => exact h
  | cons c s ih =>
      have hrest := ih h.2.2
      rwa [Nat.add_assoc, Nat.add_comm 1] at hrest

theorem distance_succ_lt {mem : Mem} {str : ℕ} (hterm : Terminated mem str)
    (hne : mem str ≠ 0) : distance mem (str + 1) < distance mem str := by
  obtain ⟨s, hs⟩ := hterm
  have hmem : mem (str + distance mem str) = 0 :=
    Nat.sInf_mem (s := {k | mem (str + k) = 0}) ⟨s.length, exists_nul hs⟩
  cases hd : distance mem str with
  | zero =>
      rw [hd] at hmem
      exact absurd hmem hne
  | succ k =>
      rw [hd, Nat.add_comm k, ← Nat.add_assoc] at hmem
      exact Nat.lt_succ_of_le (Nat.sInf_le hmem)

/-- A round goes on in the format, or leaves the loop it is in, or goes on in a string. -/
noncomputable def remaining (mem : Mem) (stop : ℕ) (p : Pos) : ℕ ×ₗ ℕ :=
  match p.kind with
  | .scan => toLex (3 * (stop + 1 - p.fmt), 0)
  | .directive => toLex (3 * (stop + 1 - p.fmt) + if isDigit (mem p.fmt) then 2 else 0, 0)
  | .width => toLex (3 * (stop + 1 - p.fmt) + 1, 0)
  | .string str => toLex (3 * (stop + 1 - p.fmt) - 1, distance mem str)
  | .halted => toLex (0, 0)

theorem lex_of_fst {a b x y : ℕ} (h : a < b) : toLex (a, x) < toLex (b, y) :=
  Prod.Lex.toLex_lt_toLex.mpr (.inl h)

/-- One byte further on, any place has less in front of it. -/
theorem remaining_succ_lt {p q : Pos} {k x : ℕ} (hfmt : q.fmt = p.fmt + 1) (hp : p.fmt ≤ stop)
    (hk : 3 * (stop + 1 - p.fmt) ≤ k) (hq : ∀ str, q.kind ≠ .string str) :
    remaining mem stop q < toLex (k, x) := by
  obtain ⟨kind, fmt, args⟩ := q
  have hfmt : fmt = p.fmt + 1 := hfmt
  cases kind with
  | scan | width | halted => exact lex_of_fst (by omega)
  | directive =>
      apply lex_of_fst
      simp only
      split <;> omega
  | string str => exact absurd rfl (hq str)

theorem remaining_halt_lt {p : Pos} {k x : ℕ} (hk : 0 < k) :
    remaining mem stop p.halt < toLex (k, x) :=
  lex_of_fst hk

theorem remaining_switch_lt {p : Pos} (hkind : p.kind = .directive) (hp : p.fmt ≤ stop) :
    remaining mem stop (p.switch D asserts (mem p.fmt)) < remaining mem stop p := by
  have hself : remaining mem stop p =
      toLex (3 * (stop + 1 - p.fmt) + if isDigit (mem p.fmt) then 2 else 0, 0) := by
    simp only [remaining, hkind]
  have hpos : 0 < 3 * (stop + 1 - p.fmt) := by omega
  rw [hself]
  have hnext : ∀ args, remaining mem stop { p with args }.next <
      toLex (3 * (stop + 1 - p.fmt) + if isDigit (mem p.fmt) then 2 else 0, 0) :=
    fun _ ↦ remaining_succ_lt rfl hp (Nat.le_add_right _ _) (by simp [Pos.next])
  have hhalt : ∀ args, remaining mem stop { p with args }.halt <
      toLex (3 * (stop + 1 - p.fmt) + if isDigit (mem p.fmt) then 2 else 0, 0) :=
    fun _ ↦ remaining_halt_lt (by omega)
  unfold Pos.switch
  by_cases hwidth : D.opensWidth (mem p.fmt) = true
  · rw [if_pos hwidth, if_pos (digit_of_opensWidth hwidth)]
    apply lex_of_fst
    simp only
    split <;> omega
  · rw [if_neg hwidth]
    by_cases hopt : (D.opt (mem p.fmt)).isSome = true
    · rw [if_pos hopt]
      exact remaining_succ_lt rfl hp (Nat.le_add_right _ _) (by simp [hkind])
    · rw [if_neg hopt]
      cases hconv : D.conv (mem p.fmt) with
      | none =>
          simp only [Pos.unsupported]
          split
          · exact hnext p.args
          · exact hhalt p.args
      | some k =>
          cases k with
          | percent => exact hnext p.args
          | s =>
              simp only [Pos.vaArg, Pos.string]
              split
              · exact hhalt p.args.tail
              · exact lex_of_fst (by simp only; omega)
          | num conv => exact hnext p.args.tail

theorem remaining_move_lt {p q : Pos} (hp : p.kind ≠ .halted → p.fmt ≤ stop)
    (hstring : ∀ str, p.kind = .string str → Terminated mem str)
    (hmove : move D asserts mem p = some q) : remaining mem stop q < remaining mem stop p := by
  obtain ⟨kind, fmt, args⟩ := p
  cases kind with
  | scan =>
      have hfmt : fmt ≤ stop := hp (by simp)
      simp only [move] at hmove
      split at hmove
      · cases hmove
        exact remaining_halt_lt (by simp only; omega)
      · split at hmove <;> cases hmove <;>
          exact remaining_succ_lt (p := ⟨.scan, fmt, args⟩) rfl hfmt le_rfl (by simp [Pos.next])
  | directive =>
      have hq : Pos.switch D asserts ⟨.directive, fmt, args⟩ (mem fmt) = q := Option.some.inj hmove
      rw [← hq]
      exact remaining_switch_lt rfl (hp (by simp))
  | width =>
      have hfmt : fmt ≤ stop := hp (by simp)
      simp only [move] at hmove
      split at hmove
      · cases hmove
        exact remaining_succ_lt (p := ⟨.width, fmt, args⟩) rfl hfmt (by simp) (by simp)
      · rename_i hdigit
        cases hmove
        apply lex_of_fst
        rw [if_neg hdigit]
        simp only
        omega
  | string str =>
      have hfmt : fmt ≤ stop := hp (by simp)
      simp only [move] at hmove
      split at hmove
      · cases hmove
        exact lex_of_fst (by simp only [Pos.next]; omega)
      · rename_i hne
        cases hmove
        exact Prod.Lex.toLex_lt_toLex.mpr (.inr ⟨rfl, distance_succ_lt (hstring str rfl) hne⟩)
  | halted => cases hmove

/-! ## Whole walks -/

/-- The run from `s` examines no byte of the format behind `stop`, and it ends unless a `%s`
argument has no end. -/
structure StaysWithin {σ : Type*} (step : σ → Option σ) (pos : σ → Pos) (mem : Mem) (stop : ℕ)
    (s : σ) : Prop where
  inside : ∀ t, StateTransition.Reaches step s t → (pos t).kind.Examines → (pos t).fmt ≤ stop
  ends : (StateTransition.eval step s).Dom ∨
    ∃ t str, StateTransition.Reaches step s t ∧ (pos t).kind = .string str ∧ ¬ Terminated mem str

theorem follows_start {fmt : ℕ} {f : List UInt8} (hfmt : CString mem fmt f)
    (args : VaList) :
    Follows D asserts mem (fmt + f.length) (endsInDirective D false f)
      (Served D mem false f args) ⟨.scan, fmt, args⟩ :=
  ⟨f, ⟨hfmt, rfl, rfl⟩, Iff.rfl⟩

theorem follows_reaches {p q : Pos} (h : Follows D asserts mem stop ends served p)
    (hnever : ∀ q, StateTransition.Reaches (move D asserts mem) p q →
      ¬ Escaped D asserts stop ends served q)
    (hreach : StateTransition.Reaches (move D asserts mem) p q) :
    Follows D asserts mem stop ends served q := by
  induction hreach with
  | refl => exact h
  | tail hst hmove ih => exact (follows_move ih hmove).resolve_right (hnever _ (hst.tail hmove))

theorem Follows.inside {p : Pos} (h : Follows D asserts mem stop ends served p)
    (hexamines : p.kind.Examines) : p.fmt ≤ stop := by
  refine h.fmt_le fun hkind ↦ ?_
  rw [hkind] at hexamines
  exact hexamines

theorem halted_of_move_eq_none {p : Pos} (h : move D asserts mem p = none) :
    p.kind = .halted := by
  obtain ⟨kind, fmt, args⟩ := p
  cases kind with
  | halted => rfl
  | directive => cases h
  | scan | width | string str =>
      simp only [move] at h
      split at h <;> try split at h
      all_goals cases h

/-- A walk that follows the format to a `%s` argument without an end, or to its own end
behind the NUL, is not one that would be served all its arguments. -/
theorem not_served_of_ends {p : Pos} (hfollows : ∀ q,
      StateTransition.Reaches (move D asserts mem) p q → Follows D asserts mem stop ends served q)
    (hend : (StateTransition.eval (move D asserts mem) p).Dom ∨
      ∃ q str, StateTransition.Reaches (move D asserts mem) p q ∧ q.kind = .string str ∧
        ¬ Terminated mem str)
    (hD : D = .snprintf) (hasserts : asserts = false) : ¬ (ends = true ∧ served) := by
  intro hends
  rcases hend with hdom | ⟨q, str, hq, hkind, hterm⟩
  · obtain ⟨q, hq⟩ := Part.dom_iff_mem.mp hdom
    obtain ⟨hreach, hnone⟩ := StateTransition.mem_eval.mp hq
    have hlast := hfollows q hreach
    have hkind := halted_of_move_eq_none hnone
    obtain ⟨kind, fmt, args⟩ := q
    obtain rfl : kind = .halted := hkind
    exact hlast hD hasserts hends
  · have hstring := hfollows q hq
    obtain ⟨kind, fmt, args⟩ := q
    obtain rfl : kind = .string str := hkind
    obtain ⟨cs, -, hserved⟩ := hstring
    exact hterm (hserved.mpr hends.2).1

/-- A walk that follows the format ends, unless a `%s` argument has no end. -/
theorem dom_of_follows {p : Pos} (hfollows : ∀ q,
      StateTransition.Reaches (move D asserts mem) p q → Follows D asserts mem stop ends served q)
    (hterm : ∀ q str, StateTransition.Reaches (move D asserts mem) p q → q.kind = .string str →
      Terminated mem str) : (StateTransition.eval (move D asserts mem) p).Dom := by
  refine StateTransition.dom_of_wellFounded (r := (· < ·)) wellFounded_lt
    (m := remaining mem stop) (P := fun q ↦ StateTransition.Reaches (move D asserts mem) p q)
    (fun q t hq hmove ↦ ⟨hq.tail hmove, ?_⟩) Relation.ReflTransGen.refl
  exact remaining_move_lt (fun hkind ↦ (hfollows q hq).fmt_le hkind)
    (fun str hkind ↦ hterm q str hq hkind) hmove

theorem staysWithin_move_iff {fmt : ℕ} {f : List UInt8} (hfmt : CString mem fmt f)
    (args : VaList) :
    StaysWithin (move D asserts mem) id mem (fmt + f.length) ⟨.scan, fmt, args⟩ ↔
      D = .printf ∨ asserts = true ∨
        ¬ (endsInDirective D false f = true ∧ Served D mem false f args) := by
  have hstart : Follows D asserts mem (fmt + f.length) (endsInDirective D false f)
      (Served D mem false f args) ⟨.scan, fmt, args⟩ := follows_start hfmt args
  constructor
  · intro h
    -- The walk never goes behind the NUL, so it follows the format all the time.
    have hfollows : ∀ q, StateTransition.Reaches (move D asserts mem) ⟨.scan, fmt, args⟩ q →
        Follows D asserts mem (fmt + f.length) (endsInDirective D false f)
          (Served D mem false f args) q := by
      refine fun q ↦ follows_reaches hstart fun q hq hesc ↦ ?_
      have hle := h.inside q hq (by rw [id, hesc.kind]; trivial)
      rw [id, hesc.fmt] at hle
      omega
    have hnot := not_served_of_ends hfollows h.ends
    cases D with
    | printf => exact .inl rfl
    | snprintf =>
        cases asserts with
        | true => exact .inr (.inl rfl)
        | false => exact .inr (.inr (hnot rfl rfl))
  · intro hsafe
    have hfollows : ∀ q, StateTransition.Reaches (move D asserts mem) ⟨.scan, fmt, args⟩ q →
        Follows D asserts mem (fmt + f.length) (endsInDirective D false f)
          (Served D mem false f args) q := by
      refine fun q ↦ follows_reaches hstart fun q _ hesc ↦ ?_
      rcases hsafe with hD | hasserts | hends
      · cases hD.symm.trans hesc.dialect
      · cases hasserts.symm.trans hesc.asserts
      · exact hends ⟨hesc.ends, hesc.served⟩
    refine ⟨fun t ht hexamines ↦ (hfollows t ht).inside hexamines, ?_⟩
    refine or_iff_not_imp_right.mpr fun hstrings ↦ dom_of_follows hfollows ?_
    intro q str hq hkind
    by_contra hnot
    exact hstrings ⟨q, str, hq, hkind, hnot⟩

/-- A machine that steps like the walk stays within its format iff the walk does. -/
theorem staysWithin_of_map {σ : Type*} {step : σ → Option σ} {pos : σ → Pos}
    (h : ∀ s, (step s).map pos = move D asserts mem (pos s)) (s : σ) :
    StaysWithin step pos mem stop s ↔
      StaysWithin (move D asserts mem) id mem stop (pos s) := by
  constructor
  · intro hs
    refine ⟨fun q hq hexamines ↦ ?_, ?_⟩
    · obtain ⟨t, ht, rfl⟩ := hq.lift h
      exact hs.inside t ht hexamines
    · refine hs.ends.imp (StateTransition.dom_of_map h s).mpr ?_
      rintro ⟨t, str, ht, hstr⟩
      exact ⟨pos t, str, ht.map h, hstr⟩
  · intro hs
    refine ⟨fun t ht hexamines ↦ hs.inside (pos t) (ht.map h) hexamines, ?_⟩
    refine hs.ends.imp (StateTransition.dom_of_map h s).mp ?_
    rintro ⟨q, str, hq, hstr⟩
    obtain ⟨t, ht, rfl⟩ := hq.lift h
    exact ⟨t, str, ht, hstr⟩

end BaizeBoard
