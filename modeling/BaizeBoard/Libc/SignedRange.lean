import BaizeBoard.Libc.Reader

/-!
# Signed computations of a formatter

The machine of `vprintf` computes with exact integers, and that of `vsnprintf`
wraps its `int`s.  `Clean` says that every signed value a run computes within its
format fits its C type, so that the run is the one of the C code.

What has to fit depends on the format and the arguments only.  `Reading` is a
format read together with its arguments, unsupported specifiers skipped or not,
`Demands` are the bounds on it, and `Audits.settles` is the one induction over
the format that ties the two, for both machines.
-/

namespace BaizeBoard

inductive CInt where
  | int
  | longLong
  deriving DecidableEq

/-- The range on LP64. -/
def CInt.Fits : CInt → ℤ → Prop
  | .int, v => -0x80000000 ≤ v ∧ v ≤ 0x7fffffff
  | .longLong, v => -0x8000000000000000 ≤ v ∧ v ≤ 0x7fffffffffffffff

def Fit (values : List (CInt × ℤ)) : Prop := ∀ v ∈ values, v.1.Fits v.2

@[simp] theorem fit_nil : Fit [] := by simp [Fit]

@[simp] theorem fit_cons (v : CInt × ℤ) (values : List (CInt × ℤ)) :
    Fit (v :: values) ↔ v.1.Fits v.2 ∧ Fit values := by
  simp [Fit]

@[simp] theorem fit_append (front back : List (CInt × ℤ)) :
    Fit (front ++ back) ↔ Fit front ∧ Fit back :=
  List.forall_mem_append

theorem fits_int_iff {v : ℤ} (h : 0 ≤ v) : CInt.int.Fits v ↔ v ≤ intMax := by
  simp only [CInt.Fits, intMax]
  omega

theorem widthValue_le_of_append {digits : List UInt8} {c : UInt8}
    (h : (widthValue (digits ++ [c]) : ℤ) ≤ intMax) : (widthValue digits : ℤ) ≤ intMax := by
  rw [widthValue_append] at h
  push_cast at h
  omega

/-- A round of the loop over a width, `padn` being the value of the digits before. -/
theorem fit_digit_iff (digits : List UInt8) {c : UInt8} (hdigit : isDigit c) {padn : ℤ}
    (hpadn : padn = widthValue digits) :
    Fit [(.int, padn * 10), (.int, padn * 10 + (c.toNat - '0'.toNat : ℤ))] ↔
      (widthValue (digits ++ [c]) : ℤ) ≤ intMax := by
  have happend := widthValue_append digits c
  rw [hpadn, padn_digit digits hdigit, fit_cons, fit_cons, fits_int_iff (by omega),
    fits_int_iff (by omega)]
  simp only [fit_nil, and_true]
  push_cast [happend]
  omega

section Runs

variable {σ : Type*} (step : σ → Option σ) (fmt : σ → ℕ) (computed : σ → List (CInt × ℤ))
  (stop : ℕ)

/-- Every value that the run from `s` computes, while it is not behind the end `stop` of the
format, fits its type. -/
def Clean (s : σ) : Prop :=
  ∀ t, StateTransition.Reaches step s t → fmt t ≤ stop → Fit (computed t)

variable {step fmt computed stop}

theorem clean_of_step {s t : σ} (h : step s = some t) (hfmt : fmt s ≤ stop) :
    Clean step fmt computed stop s ↔ Fit (computed s) ∧ Clean step fmt computed stop t := by
  constructor
  · intro hclean
    exact ⟨hclean s Relation.ReflTransGen.refl hfmt, fun u hu ↦ hclean u (hu.head h)⟩
  · rintro ⟨hnow, hlater⟩ u hu hle
    rcases Relation.ReflTransGen.cases_head hu with rfl | ⟨v, hv, hvu⟩
    · exact hnow
    · cases h.symm.trans hv
      exact hlater u hvu hle

theorem clean_of_halt {s : σ} (h : step s = none) (hnothing : computed s = []) :
    Clean step fmt computed stop s := by
  intro u hu _
  rcases Relation.ReflTransGen.cases_head hu with rfl | ⟨v, hv, -⟩
  · simp [hnothing]
  · cases h.symm.trans hv

/-- Behind the end of the format nothing counts any more. -/
theorem clean_behind (hmono : ∀ s t, step s = some t → fmt s ≤ fmt t) {s : σ}
    (h : stop < fmt s) : Clean step fmt computed stop s := by
  intro t ht hle
  have hbehind : stop < fmt t :=
    ht.invariant (P := fun u ↦ stop < fmt u) (fun u v hu huv ↦ hu.trans_le (hmono u v huv)) h
  omega

end Runs

/-! ## Formats read with their arguments -/

inductive Reading where
  | done
  | piece (opts : List Opt) (field : Field) (rest : Reading)
  /-- An unsupported specifier that the scan goes on behind. -/
  | skipped (opts : List Opt) (rest : Reading)
  /-- The end of the string inside a directive, or an unsupported specifier
  where the scan ends. -/
  | cut (opts : List Opt)

/-- The field of a specifier, and the arguments behind the one it fetches. -/
def fetch (opts : List Opt) : Conv → List Arg → Option (Field × List Arg)
  | .percent, args => some (.percent, args)
  | .s, .str _ s :: args => some (.str s, args)
  | .num conv, .word w :: args => some (.number opts conv w, args)
  | .s, _ => none
  | .num _, _ => none

def readFrom (D : Dialect) (skips : Bool) : Scan → List UInt8 → List Arg → Option Reading
  | .literal, [], _ => some .done
  | .literal, c :: cs, args =>
      if c = '%'.toUInt8 then readFrom D skips (.directive [] none) cs args
      else (readFrom D skips .literal cs args).map (.piece [] (.lit c))
  | .directive opts digits, [], _ => some (.cut (closeWidth opts digits))
  | .directive opts digits, c :: cs, args =>
      if digits.isSome ∧ isDigit c then
        readFrom D skips (.directive opts (digits.map (· ++ [c]))) cs args
      else if D.opensWidth c then
        readFrom D skips (.directive (closeWidth opts digits) (some [c])) cs args
      else match D.opt c with
        | some opt => readFrom D skips (.directive (closeWidth opts digits ++ [opt]) none) cs args
        | none =>
            match D.conv c with
            | some conv =>
                (fetch (closeWidth opts digits) conv args).bind fun p ↦
                  (readFrom D skips .literal cs p.2).map (.piece (closeWidth opts digits) p.1)
            | none =>
                if skips then
                  (readFrom D skips .literal cs args).map (.skipped (closeWidth opts digits))
                else some (.cut (closeWidth opts digits))

namespace Reading

def opts : Reading → List (List Opt)
  | .done => []
  | .piece opts _ rest => opts :: rest.opts
  | .skipped opts rest => opts :: rest.opts
  | .cut opts => [opts]

def fields : Reading → List Field
  | .done => []
  | .piece _ field rest => field :: rest.fields
  | .skipped _ rest => rest.fields
  | .cut _ => []

/-- The scan comes to the end of the string outside of directives. -/
def Ends : Reading → Prop
  | .done => True
  | .piece _ _ rest => rest.Ends
  | .skipped _ rest => rest.Ends
  | .cut _ => False

end Reading

theorem fields_directive (opts : List Opt) (k : Conv) (rest : Format) (args : List Arg) :
    (Format.directive opts k rest).fields args =
      (fetch opts k args).bind fun p ↦ (rest.fields p.2).map (p.1 :: ·) := by
  cases k with
  | percent => rfl
  | s => rcases args with _ | ⟨_ | _, args⟩ <;> rfl
  | num conv => rcases args with _ | ⟨_ | _, args⟩ <;> rfl

/-! ## Bounds -/

/-- What a formatter demands of a directive's items, of a field, of the count after each field,
and of the count at the end; `size` is what a field adds to the count. -/
structure Limits where
  opts : List Opt → Prop
  field : Field → Prop
  size : Field → ℤ
  running : ℤ → Prop
  final : ℤ → Prop
  opts_nil : opts []
  opts_append : ∀ {front back}, opts (front ++ back) → opts front
  opts_digit : ∀ {front digits c},
    opts (front ++ [.width (digits ++ [c])]) → opts (front ++ [.width digits])

def Demands (L : Limits) : ℤ → Reading → Prop
  | total, .done => L.final total
  | total, .piece opts field rest =>
      L.opts opts ∧ (L.field field ∧ L.running (total + L.size field)) ∧
        Demands L (total + L.size field) rest
  | total, .skipped opts rest => L.opts opts ∧ Demands L total rest
  | _, .cut opts => L.opts opts

/-- The items of its directive that a scan has read. -/
def Scan.read : Scan → List Opt
  | .literal => []
  | .directive opts digits => closeWidth opts digits

variable {L : Limits} {D : Dialect} {skips : Bool}

/-- What is read later of a directive asks for no less than what has been read. -/
theorem opts_of_demands {scan : Scan} {cs : List UInt8} {args : List Arg} {r : Reading} {total : ℤ}
    (hread : readFrom D skips scan cs args = some r) (h : Demands L total r) :
    L.opts scan.read := by
  induction cs generalizing scan with
  | nil =>
      cases scan with
      | literal => exact L.opts_nil
      | directive opts digits =>
          cases hread
          exact h
  | cons c cs ih =>
      cases scan with
      | literal => exact L.opts_nil
      | directive opts digits =>
          rw [readFrom] at hread
          split at hread
          · obtain ⟨digits, rfl⟩ := Option.isSome_iff_exists.mp (‹_ ∧ _›).1
            exact L.opts_digit (ih hread)
          · split at hread
            · exact L.opts_append (ih hread)
            · split at hread
              · exact L.opts_append (ih hread)
              · split at hread
                · obtain ⟨p, -, hrest⟩ := Option.bind_eq_some_iff.mp hread
                  obtain ⟨rest, -, rfl⟩ := Option.map_eq_some_iff.mp hrest
                  exact h.1
                · split at hread
                  · obtain ⟨rest, -, rfl⟩ := Option.map_eq_some_iff.mp hread
                    exact h.1
                  · cases hread
                    exact h

/-! ## Machines that compute while they read -/

/-- What the bounds are about in a state of a machine: whether its run is clean, the arguments
it has not fetched, and its count. -/
structure Ledger (σ : Type*) where
  clean : σ → Prop
  args : σ → VaList
  total : σ → ℤ

variable {σ : Type*}

structure Ledger.Quiet (A : Ledger σ) (s t : σ) (demand : Prop) : Prop where
  clean : A.clean s ↔ demand ∧ A.clean t
  args : A.args t = A.args s
  total : A.total t = A.total s

structure Ledger.Puts (A : Ledger σ) (L : Limits) (s t : σ) (args : VaList)
    (field : Field) : Prop where
  clean : A.clean s ↔ (L.field field ∧ L.running (A.total s + L.size field)) ∧ A.clean t
  args : A.args t = args
  total : A.total t = A.total s + L.size field

/-- A machine reads formats as in `Reads`, and this is what its run between two of the places
`At` computes.  It is at one of them again as long as the count has stayed in bounds. -/
structure Audits (D : Dialect) (skips : Bool) (mem : Mem) (L : Limits) (A : Ledger σ)
    (At : σ → Scan → List UInt8 → Prop) : Prop where
  finish : ∀ {s}, At s .literal [] → (A.clean s ↔ L.final (A.total s))
  lit : ∀ {s c cs}, c ≠ '%'.toUInt8 → At s .literal (c :: cs) →
    ∃ t, A.Puts L s t (A.args s) (.lit c) ∧ (L.running (A.total t) → At t .literal cs)
  opening : ∀ {s cs}, At s .literal ('%'.toUInt8 :: cs) →
    ∃ t, A.Quiet s t True ∧ At t (.directive [] none) cs
  digit : ∀ {s opts digits c cs}, isDigit c → L.opts (opts ++ [.width digits]) →
    At s (.directive opts (some digits)) (c :: cs) →
    ∃ t, A.Quiet s t (L.opts (opts ++ [.width (digits ++ [c])])) ∧
      At t (.directive opts (some (digits ++ [c]))) cs
  widthEnd : ∀ {s opts digits cs}, (∀ c ∈ cs.head?, isDigit c = false) →
    L.opts (opts ++ [.width digits]) → At s (.directive opts (some digits)) cs →
    ∃ t, A.Quiet s t True ∧ At t (.directive (opts ++ [.width digits]) none) cs
  width : ∀ {s opts c cs}, D.opensWidth c → L.opts opts → At s (.directive opts none) (c :: cs) →
    ∃ t, A.Quiet s t (L.opts (opts ++ [.width [c]])) ∧ At t (.directive opts (some [c])) cs
  opt : ∀ {s opts c o cs}, D.opt c = some o → L.opts opts →
    At s (.directive opts none) (c :: cs) →
    ∃ t, A.Quiet s t (L.opts (opts ++ [o])) ∧ At t (.directive (opts ++ [o]) none) cs
  put : ∀ {s opts c k cs args beyond field rest}, D.conv c = some k → L.opts opts →
    (∀ a ∈ args, a.Valid mem) → fetch opts k args = some (field, rest) →
    A.args s = slots args beyond → At s (.directive opts none) (c :: cs) →
    ∃ t, A.Puts L s t (slots rest beyond) field ∧ (L.running (A.total t) → At t .literal cs)
  skip : skips = true → ∀ {s opts c cs}, D.Stops (c :: cs) →
    At s (.directive opts none) (c :: cs) → ∃ t, A.Quiet s t True ∧ At t .literal cs
  cut : ∀ {s opts cs}, skips = false ∨ cs = [] → D.Stops cs → At s (.directive opts none) cs →
    A.clean s

variable {mem : Mem} {A : Ledger σ} {At : σ → Scan → List UInt8 → Prop}

/-- The run from `s` is clean iff what is left of the format asks for nothing out of range. -/
def Settles (D : Dialect) (skips : Bool) (mem : Mem) (L : Limits) (A : Ledger σ) (s : σ)
    (scan : Scan) (cs : List UInt8) : Prop :=
  ∀ args beyond r, A.args s = slots args beyond → (∀ a ∈ args, a.Valid mem) →
    readFrom D skips scan cs args = some r → (A.clean s ↔ Demands L (A.total s) r)

theorem Settles.quiet {s t : σ} {scan scan' : Scan} {cs cs' : List UInt8} {demand : Prop}
    (hquiet : A.Quiet s t demand)
    (hread : ∀ args, readFrom D skips scan cs args = readFrom D skips scan' cs' args)
    (hdemand : L.opts scan'.read → demand)
    (h : demand → Settles D skips mem L A t scan' cs') : Settles D skips mem L A s scan cs := by
  intro args beyond r hargs hvalid hr
  rw [hread] at hr
  have hsettled : demand → (A.clean t ↔ Demands L (A.total s) r) := by
    intro hd
    rw [← hquiet.total]
    exact h hd args beyond r (hquiet.args.trans hargs) hvalid hr
  rw [hquiet.clean]
  constructor
  · rintro ⟨hd, hclean⟩
    exact (hsettled hd).mp hclean
  · intro hdemands
    have hd := hdemand (opts_of_demands hr hdemands)
    exact ⟨hd, (hsettled hd).mpr hdemands⟩

theorem valid_of_fetch {opts : List Opt} {k : Conv} {args rest : List Arg} {field : Field}
    (hfetch : fetch opts k args = some (field, rest)) (hvalid : ∀ a ∈ args, a.Valid mem) :
    ∀ a ∈ rest, a.Valid mem := by
  unfold fetch at hfetch
  split at hfetch <;> cases hfetch
  · exact hvalid
  · exact fun a ha ↦ hvalid a (List.mem_cons_of_mem _ ha)
  · exact fun a ha ↦ hvalid a (List.mem_cons_of_mem _ ha)

theorem Settles.puts {s t : σ} {cs : List UInt8} {args : List Arg} {beyond : VaList}
    {field : Field} {opts : List Opt} (hopts : L.opts opts)
    (hputs : A.Puts L s t (slots args beyond) field) (hvalid : ∀ a ∈ args, a.Valid mem)
    (h : L.running (A.total t) → Settles D skips mem L A t .literal cs) {rest : Reading}
    (hrest : readFrom D skips .literal cs args = some rest) :
    A.clean s ↔ Demands L (A.total s) (.piece opts field rest) := by
  rw [hputs.clean, Demands, and_iff_right hopts, ← hputs.total]
  refine and_congr_right fun hfield ↦ ?_
  exact h hfield.2 args beyond rest hputs.args hvalid hrest

namespace Audits

theorem settles_cons (R : Audits D skips mem L A At) {s : σ} {opts : List Opt} {c : UInt8}
    {cs : List UInt8} (hat : At s (.directive opts none) (c :: cs)) (hopts : L.opts opts)
    (ih : ∀ scan t, At t scan cs → L.opts scan.read → Settles D skips mem L A t scan cs) :
    Settles D skips mem L A s (.directive opts none) (c :: cs) := by
  by_cases hwidth : D.opensWidth c = true
  · obtain ⟨t, hquiet, htat⟩ := R.width hwidth hopts hat
    refine Settles.quiet hquiet (fun args ↦ ?_) id (ih _ t htat)
    simp [readFrom, hwidth, closeWidth]
  · cases hopt : D.opt c with
    | some o =>
        obtain ⟨t, hquiet, htat⟩ := R.opt hopt hopts hat
        refine Settles.quiet hquiet (fun args ↦ ?_) id (ih _ t htat)
        simp [readFrom, hwidth, hopt, closeWidth]
    | none =>
        cases hconv : D.conv c with
        | some k =>
            intro args beyond r hargs hvalid hr
            simp only [readFrom, Option.isSome_none, Bool.false_eq_true, false_and, if_false,
              hwidth, hopt, hconv, closeWidth] at hr
            obtain ⟨⟨field, rest⟩, hfetch, hr⟩ := Option.bind_eq_some_iff.mp hr
            obtain ⟨r, hrest, rfl⟩ := Option.map_eq_some_iff.mp hr
            obtain ⟨t, hputs, htat⟩ := R.put hconv hopts hvalid hfetch hargs hat
            exact Settles.puts hopts hputs (valid_of_fetch hfetch hvalid)
              (fun hrun ↦ ih .literal t (htat hrun) L.opts_nil) hrest
        | none =>
            have hstop : D.Stops (c :: cs) := by
              rintro d hd
              cases hd
              exact ⟨by simpa using hwidth, hopt, hconv⟩
            intro args beyond r hargs hvalid hr
            simp only [readFrom, Option.isSome_none, Bool.false_eq_true, false_and, if_false,
              hwidth, hopt, hconv, closeWidth] at hr
            split at hr
            · obtain ⟨r, hrest, rfl⟩ := Option.map_eq_some_iff.mp hr
              obtain ⟨t, hquiet, htat⟩ := R.skip ‹_› hstop hat
              rw [hquiet.clean, true_and, ih .literal t htat L.opts_nil args beyond r
                (hquiet.args.trans hargs) hvalid hrest, hquiet.total, Demands, and_iff_right hopts]
            · cases hr
              have hskips : skips = false := by simpa using ‹¬ skips = true›
              exact iff_of_true (R.cut (.inl hskips) hstop hat) hopts

/-- Induct on the characters that are left of the format. -/
theorem settles (R : Audits D skips mem L A At) (cs : List UInt8) (scan : Scan) (s : σ)
    (hat : At s scan cs) (hopts : L.opts scan.read) : Settles D skips mem L A s scan cs := by
  induction cs generalizing scan s with
  | nil =>
      have hcut : ∀ {t opts}, At t (.directive opts none) [] → A.clean t :=
        fun htat ↦ R.cut (.inr rfl) (by simp [Dialect.Stops]) htat
      intro args beyond r _ _ hr
      cases scan with
      | literal =>
          cases hr
          exact R.finish hat
      | directive opts digits =>
          cases hr
          cases digits with
          | none => exact iff_of_true (hcut hat) hopts
          | some digits =>
              obtain ⟨t, hquiet, htat⟩ := R.widthEnd (by simp) hopts hat
              exact iff_of_true (hquiet.clean.mpr ⟨trivial, hcut htat⟩) hopts
  | cons c cs ih =>
      cases scan with
      | literal =>
          by_cases hc : c = '%'.toUInt8
          · obtain ⟨t, hquiet, htat⟩ := R.opening (hc ▸ hat)
            refine Settles.quiet hquiet (fun args ↦ ?_) (fun _ ↦ trivial)
              fun _ ↦ ih _ t htat L.opts_nil
            rw [readFrom, if_pos hc]
          · intro args beyond r hargs hvalid hr
            rw [readFrom, if_neg hc] at hr
            obtain ⟨r, hrest, rfl⟩ := Option.map_eq_some_iff.mp hr
            obtain ⟨t, hputs, htat⟩ := R.lit hc hat
            exact Settles.puts L.opts_nil (hargs ▸ hputs) hvalid
              (fun hrun ↦ ih .literal t (htat hrun) L.opts_nil) hrest
      | directive opts digits =>
          cases digits with
          | none => exact R.settles_cons hat hopts fun scan t ↦ ih scan t
          | some digits =>
              by_cases hdigit : isDigit c = true
              · obtain ⟨t, hquiet, htat⟩ := R.digit hdigit hopts hat
                refine Settles.quiet hquiet (fun args ↦ ?_) id (ih _ t htat)
                simp [readFrom, hdigit]
              · obtain ⟨t, hquiet, htat⟩ := R.widthEnd (by simpa using hdigit) hopts hat
                refine Settles.quiet hquiet (fun args ↦ ?_) (fun _ ↦ trivial)
                  fun _ ↦ R.settles_cons htat hopts fun scan t ↦ ih scan t
                simp [readFrom, hdigit, closeWidth]

end Audits

end BaizeBoard
