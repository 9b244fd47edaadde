import BaizeBoard.Library.Transition
import BaizeBoard.Libc.Format

/-!
# Machines that read a format

Both formatters walk over their format byte by byte, the way `parseFrom` does.
`Reads` collects what one such walk has to do at each kind of byte;
`Reads.covers` is the induction over the format, done once for both: the machine
puts exactly the fields of its format, and then stands at the end of the string
or at the first directive it does not support.
-/

namespace BaizeBoard

/-! ## Widths -/

theorem widthValue_append (digits : List UInt8) (c : UInt8) :
    widthValue (digits ++ [c]) = 10 * widthValue digits + (c.toNat - '0'.toNat) :=
  Numeral.reading_append_singleton digits c

/-- `padn = (padn * 10) + (*fmt - '0')` extends the value of the digits. -/
theorem padn_digit (digits : List UInt8) {c : UInt8} (hdigit : isDigit c) :
    (widthValue digits : ℤ) * 10 + (c.toNat - '0'.toNat : ℤ) = widthValue (digits ++ [c]) := by
  simp only [isDigit, Bool.and_eq_true, decide_eq_true_eq] at hdigit
  have hge : 48 ≤ c.toNat := hdigit.1
  have hzero : '0'.toNat = 48 := rfl
  rw [widthValue_append, hzero]
  omega

/-! ## Walks over a format -/

/-- What a formatter shows of its state: the arguments it has not fetched, and
its output, to which a field is added by `emit`. -/
structure View (σ ω : Type*) where
  args : σ → VaList
  output : σ → ω
  emit : ω → Field → ω

variable {σ ω : Type*}

/-- A run through `s` goes through `t`, with nothing put or fetched between. -/
structure View.Quiet (V : View σ ω) (f : σ → Option σ) (s t : σ) : Prop where
  eval : StateTransition.eval f s = StateTransition.eval f t
  args : V.args t = V.args s
  output : V.output t = V.output s

/-- A run through `s` goes through `t`, with one field put between and the
arguments `args` left. -/
structure View.Puts (V : View σ ω) (f : σ → Option σ) (s t : σ) (args : VaList)
    (field : Field) : Prop where
  eval : StateTransition.eval f s = StateTransition.eval f t
  args : V.args t = args
  output : V.output t = V.emit (V.output s) field

/-- The machine `f` reads formats of the dialect `D`: `At s scan cs` says that it
is in state `scan` of the reading, in front of the characters `cs`. -/
structure Reads (D : Dialect) (mem : Mem) (V : View σ ω) (f : σ → Option σ)
    (At : σ → Scan → List UInt8 → Prop) : Prop where
  lit : ∀ {s c cs}, c ≠ '%'.toUInt8 → At s .literal (c :: cs) →
    ∃ t, V.Puts f s t (V.args s) (.lit c) ∧ At t .literal cs
  opening : ∀ {s cs}, At s .literal ('%'.toUInt8 :: cs) →
    ∃ t, V.Quiet f s t ∧ At t (.directive [] none) cs
  digit : ∀ {s opts digits c cs}, isDigit c → At s (.directive opts (some digits)) (c :: cs) →
    ∃ t, V.Quiet f s t ∧ At t (.directive opts (some (digits ++ [c]))) cs
  widthEnd : ∀ {s opts digits cs}, (∀ c ∈ cs.head?, isDigit c = false) →
    At s (.directive opts (some digits)) cs →
    ∃ t, V.Quiet f s t ∧ At t (.directive (opts ++ [.width digits]) none) cs
  width : ∀ {s opts c cs}, D.opensWidth c → At s (.directive opts none) (c :: cs) →
    ∃ t, V.Quiet f s t ∧ At t (.directive opts (some [c])) cs
  opt : ∀ {s opts c o cs}, ¬ D.opensWidth c → D.opt c = some o →
    At s (.directive opts none) (c :: cs) →
    ∃ t, V.Quiet f s t ∧ At t (.directive (opts ++ [o]) none) cs
  percent : ∀ {s opts c cs}, D.conv c = some .percent → At s (.directive opts none) (c :: cs) →
    ∃ t, V.Puts f s t (V.args s) .percent ∧ At t .literal cs
  str : ∀ {s opts c cs addr args str}, D.conv c = some .s → addr ≠ 0 →
    CString mem addr.toNat str → V.args s = .cons addr args →
    At s (.directive opts none) (c :: cs) →
    ∃ t, V.Puts f s t args (.str str) ∧ At t .literal cs
  num : ∀ {s opts c cs conv w args}, D.conv c = some (.num conv) → V.args s = .cons w args →
    At s (.directive opts none) (c :: cs) →
    ∃ t, V.Puts f s t args (.number opts conv w) ∧ At t .literal cs

def Dialect.Stops (D : Dialect) (cs : List UInt8) : Prop :=
  ∀ c ∈ cs.head?, D.opensWidth c = false ∧ D.opt c = none ∧ D.conv c = none

variable {D : Dialect} {mem : Mem} {V : View σ ω} {f : σ → Option σ}
  {At : σ → Scan → List UInt8 → Prop}

/-- From `s` on, the machine puts the fields of `F`, and comes to the end of the
string if all of them are supported, else to one that is not. -/
def Covers (D : Dialect) (mem : Mem) (V : View σ ω) (f : σ → Option σ)
    (At : σ → Scan → List UInt8 → Prop) (s : σ) (F : Format) : Prop :=
  ∀ args beyond fields, V.args s = slots args beyond → (∀ a ∈ args, a.Valid mem) →
    F.fields args = some fields →
    ∃ t, StateTransition.eval f s = StateTransition.eval f t ∧
      V.output t = fields.foldl V.emit (V.output s) ∧
      if F.Documented then At t .literal []
      else ∃ opts rest, At t (.directive opts none) rest ∧ D.Stops rest

theorem Covers.quiet {s t : σ} {F : Format} (hquiet : V.Quiet f s t)
    (h : Covers D mem V f At t F) : Covers D mem V f At s F := by
  intro args beyond fields hargs hvalid hfields
  obtain ⟨u, hu, hout, hend⟩ := h args beyond fields (hquiet.args.trans hargs) hvalid hfields
  exact ⟨u, hquiet.eval.trans hu, by rw [hout, hquiet.output], hend⟩

theorem Covers.puts (rest : Format) {s t : σ} {field : Field} {args : List Arg}
    {beyond : VaList} {fields : List Field} (hputs : V.Puts f s t (slots args beyond) field)
    (hvalid : ∀ a ∈ args, a.Valid mem) (hfields : rest.fields args = some fields)
    (h : Covers D mem V f At t rest) :
    ∃ u, StateTransition.eval f s = StateTransition.eval f u ∧
      V.output u = (field :: fields).foldl V.emit (V.output s) ∧
      if rest.Documented then At u .literal []
      else ∃ opts rest, At u (.directive opts none) rest ∧ D.Stops rest := by
  obtain ⟨u, hu, hout, hend⟩ := h args beyond fields hputs.args hvalid hfields
  exact ⟨u, hputs.eval.trans hu, by rw [hout, hputs.output, List.foldl_cons], hend⟩

theorem covers_broken {s : σ} {opts opts' : List Opt} {cs rest : List UInt8}
    (h : At s (.directive opts none) cs) (hstop : D.Stops cs) :
    Covers D mem V f At s (.broken opts' rest) := by
  intro args beyond fields _ _ hfields
  cases hfields
  exact ⟨s, rfl, rfl, opts, cs, h, hstop⟩

namespace Reads

theorem covers_lit (R : Reads D mem V f At) {s : σ} {c : UInt8} {cs : List UInt8} {rest : Format}
    (hc : c ≠ '%'.toUInt8) (hat : At s .literal (c :: cs))
    (ih : ∀ t, At t .literal cs → Covers D mem V f At t rest) :
    Covers D mem V f At s (.lit c rest) := by
  intro args beyond fields hargs hvalid hfields
  obtain ⟨fields, hrest, rfl⟩ := Option.map_eq_some_iff.mp hfields
  obtain ⟨t, hputs, htat⟩ := R.lit hc hat
  exact Covers.puts rest (hargs ▸ hputs) hvalid hrest (ih t htat)

theorem covers_directive (R : Reads D mem V f At) {s : σ} {opts : List Opt} {c : UInt8}
    {k : Conv} {cs : List UInt8} {rest : Format} (hk : D.conv c = some k)
    (hat : At s (.directive opts none) (c :: cs))
    (ih : ∀ t, At t .literal cs → Covers D mem V f At t rest) :
    Covers D mem V f At s (.directive opts k rest) := by
  intro args beyond fields hargs hvalid hfields
  cases k with
  | percent =>
      obtain ⟨fields, hrest, rfl⟩ := Option.map_eq_some_iff.mp hfields
      obtain ⟨t, hputs, htat⟩ := R.percent hk hat
      exact Covers.puts rest (hargs ▸ hputs) hvalid hrest (ih t htat)
  | s =>
      match args, hfields with
      | .str addr str :: args, hfields =>
          obtain ⟨fields, hrest, rfl⟩ := Option.map_eq_some_iff.mp hfields
          obtain ⟨haddr, hstr⟩ := hvalid _ List.mem_cons_self
          obtain ⟨t, hputs, htat⟩ := R.str hk haddr hstr hargs hat
          exact Covers.puts rest hputs (fun a ha ↦ hvalid a (List.mem_cons_of_mem _ ha)) hrest
            (ih t htat)
  | num conv =>
      match args, hfields with
      | .word w :: args, hfields =>
          obtain ⟨fields, hrest, rfl⟩ := Option.map_eq_some_iff.mp hfields
          obtain ⟨t, hputs, htat⟩ := R.num hk hargs hat
          exact Covers.puts rest hputs (fun a ha ↦ hvalid a (List.mem_cons_of_mem _ ha)) hrest
            (ih t htat)

theorem covers_cons (R : Reads D mem V f At) {s : σ} {opts : List Opt} {c : UInt8}
    {cs : List UInt8} (hat : At s (.directive opts none) (c :: cs))
    (ih : ∀ scan t, At t scan cs → Covers D mem V f At t (parseFrom D scan cs)) :
    Covers D mem V f At s (parseFrom D (.directive opts none) (c :: cs)) := by
  simp only [parseFrom, Option.isSome_none, Bool.false_eq_true, false_and, if_false, closeWidth]
  by_cases hwidth : D.opensWidth c = true
  · obtain ⟨t, hquiet, htat⟩ := R.width hwidth hat
    rw [if_pos hwidth]
    exact (ih _ t htat).quiet hquiet
  · rw [if_neg hwidth]
    cases hopt : D.opt c with
    | some o =>
        obtain ⟨t, hquiet, htat⟩ := R.opt hwidth hopt hat
        exact (ih _ t htat).quiet hquiet
    | none =>
        cases hconv : D.conv c with
        | some k => exact R.covers_directive hconv hat (ih .literal)
        | none =>
            refine covers_broken hat ?_
            intro d hd
            cases hd
            exact ⟨by simpa using hwidth, hopt, hconv⟩

/-- Induct on the characters that are left of the format. -/
theorem covers (R : Reads D mem V f At) (cs : List UInt8) (scan : Scan) (s : σ)
    (hat : At s scan cs) : Covers D mem V f At s (parseFrom D scan cs) := by
  induction cs generalizing scan s with
  | nil =>
      match scan with
      | .literal =>
          intro args beyond fields _ _ hfields
          cases hfields
          exact ⟨s, rfl, rfl, hat⟩
      | .directive opts none => exact covers_broken hat (by simp [Dialect.Stops])
      | .directive opts (some digits) =>
          obtain ⟨t, hquiet, htat⟩ := R.widthEnd (by simp) hat
          exact (covers_broken htat (by simp [Dialect.Stops])).quiet hquiet
  | cons c cs ih =>
      match scan with
      | .literal =>
          by_cases hc : c = '%'.toUInt8
          · obtain ⟨t, hquiet, htat⟩ := R.opening (hc ▸ hat)
            rw [parseFrom, if_pos hc]
            exact (ih _ t htat).quiet hquiet
          · rw [parseFrom, if_neg hc]
            exact R.covers_lit hc hat (ih .literal)
      | .directive opts none => exact R.covers_cons hat ih
      | .directive opts (some digits) =>
          by_cases hdigit : isDigit c = true
          · obtain ⟨t, hquiet, htat⟩ := R.digit hdigit hat
            have hparse : parseFrom D (.directive opts (some digits)) (c :: cs) =
                parseFrom D (.directive opts (some (digits ++ [c]))) cs := by
              simp [parseFrom, hdigit]
            rw [hparse]
            exact (ih _ t htat).quiet hquiet
          · have hend : ∀ d ∈ (c :: cs).head?, isDigit d = false := by simpa using hdigit
            obtain ⟨t, hquiet, htat⟩ := R.widthEnd hend hat
            rw [parseFrom_closeWidth D opts (some digits) (c :: cs) hend]
            exact (R.covers_cons htat ih).quiet hquiet

end Reads

end BaizeBoard
