import BaizeBoard.Libc.Memory
import BaizeBoard.Library.Ram
import BaizeBoard.Library.Tokens
import Mathlib.Data.List.Forall2

/-!
# `strtok_r`

Each call skips delimiters, ends the token behind them with a NUL, and keeps in
`*last` where the next call goes on; the delimiters may be others each time.
The pointers that may be `NULL` are optional addresses.
-/

namespace BaizeBoard.Strtok

variable {bits : ℕ}

/-- `for (spanp = delim; (sc = *spanp++) != 0;)`: whether `c` is met. -/
def skips (m : Ram bits) (c : UInt8) (spanp : ℕ) : Option Bool :=
  match h : m.load spanp with
  | none => none
  | some sc =>
      if sc = 0 then some false
      else if c = sc then some true
      else skips m c (spanp + 1)
termination_by 2 ^ bits - spanp
decreasing_by exact Ram.left_lt h

/-- The loop at `cont`: the `c` that is no delimiter, and `s` behind it. -/
def cont (m : Ram bits) (delim s : ℕ) : Option (UInt8 × ℕ) :=
  match _ : m.load s with
  | none => none
  | some c =>
      match skips m c delim with
      | none => none
      | some true => cont m delim (s + 1)
      | some false => some (c, s + 1)
termination_by 2 ^ bits - s
decreasing_by exact Ram.left_lt ‹_›

/-- `do { … } while (sc != 0);`: whether `c` is met, the NUL of `delim` included. -/
def ends (m : Ram bits) (c : UInt8) (spanp : ℕ) : Option Bool :=
  match h : m.load spanp with
  | none => none
  | some sc =>
      if sc = c then some true
      else if sc ≠ 0 then ends m c (spanp + 1)
      else some false
termination_by 2 ^ bits - spanp
decreasing_by exact Ram.left_lt h

/-- The second `for (;;)`: the `c` that ends the token, and `s` behind it. -/
def scan (m : Ram bits) (delim s : ℕ) : Option (UInt8 × ℕ) :=
  match _ : m.load s with
  | none => none
  | some c =>
      match ends m c delim with
      | none => none
      | some true => some (c, s + 1)
      | some false => scan m delim (s + 1)
termination_by 2 ^ bits - s
decreasing_by exact Ram.left_lt ‹_›

/-- The memory, what is returned, and `*last` after the call. -/
def strtokR (m : Ram bits) (s : Option ℕ) (delim : ℕ) (last : Option ℕ) :
    Option (Ram bits × Option ℕ × Option ℕ) :=
  match s.or last with
  | none => some (m, none, last)
  | some s => do
      let (c, s) ← cont m delim s
      if c = 0 then return (m, none, none)
      let tok := s - 1
      let (c, s) ← scan m delim s
      if c = 0 then return (m, some tok, none)
      let m ← m.store (s - 1) 0
      return (m, some tok, some s)

/-- Calls of `strtok_r`, one for each of `delims`, the first with `s` and the
others with `NULL`. -/
def calls (m : Ram bits) (s last : Option ℕ) : List ℕ → Option (Ram bits × List (Option ℕ))
  | [] => some (m, [])
  | delim :: delims => do
      let (m, tok, last) ← strtokR m s delim last
      let (m, toks) ← calls m none last delims
      return (m, tok :: toks)

/-! ## The loops -/

variable {m : Ram bits} {p delim : ℕ} {D : List UInt8}

theorem skips_of_load {c sc : UInt8} (h : m.load p = some sc) :
    skips m c p =
      if sc = 0 then some false else if c = sc then some true else skips m c (p + 1) := by
  rw [skips]
  exact Ram.match_load h _ _

theorem ends_of_load {c sc : UInt8} (h : m.load p = some sc) :
    ends m c p =
      if sc = c then some true else if sc ≠ 0 then ends m c (p + 1) else some false := by
  rw [ends]
  exact Ram.match_load h _ _

theorem cont_of_load {c : UInt8} (h : m.load p = some c) {b : Bool}
    (hb : skips m c delim = some b) :
    cont m delim p = if b then cont m delim (p + 1) else some (c, p + 1) := by
  rw [cont]
  refine (Ram.match_load h _ _).trans ?_
  rw [hb]
  cases b <;> rfl

theorem scan_of_load {c : UInt8} (h : m.load p = some c) {b : Bool}
    (hb : ends m c delim = some b) :
    scan m delim p = if b then some (c, p + 1) else scan m delim (p + 1) := by
  rw [scan]
  refine (Ram.match_load h _ _).trans ?_
  rw [hb]
  cases b <;> rfl

theorem skips_eq (hD : m.Str delim D) (c : UInt8) : skips m c delim = some (decide (c ∈ D)) := by
  induction D generalizing delim with
  | nil => exact skips_of_load hD.load
  | cons sc D ih =>
      rw [skips_of_load hD.load, List.headD_cons, if_neg hD.head_ne, ih hD.tail]
      by_cases hc : c = sc
      · simp [hc]
      · simp [hc]

theorem ends_eq (hD : m.Str delim D) (c : UInt8) :
    ends m c delim = some (decide (c ∈ D ∨ c = 0)) := by
  induction D generalizing delim with
  | nil =>
      rw [ends_of_load hD.load]
      by_cases hc : c = 0
      · simp [hc]
      · simp [hc, Ne.symm hc]
  | cons sc D ih =>
      rw [ends_of_load hD.load, List.headD_cons, ih hD.tail]
      by_cases hc : sc = c
      · simp [hc]
      · simp [hc, Ne.symm hc, hD.head_ne]

theorem cont_eq {front t : List UInt8} (hD : m.Str delim D) (h : m.Str p (front ++ t))
    (hfront : ∀ c ∈ front, c ∈ D) (ht : t.headD 0 ∉ D) :
    cont m delim p = some (t.headD 0, p + front.length + 1) := by
  induction front generalizing p with
  | nil =>
      rw [cont_of_load h.load (skips_eq hD _), List.nil_append, decide_eq_false ht]
      rfl
  | cons c front ih =>
      have hrest := ih h.tail fun d hd ↦ hfront d (List.mem_cons_of_mem c hd)
      rw [cont_of_load h.load (skips_eq hD _), List.cons_append, List.headD_cons,
        decide_eq_true (hfront c List.mem_cons_self), if_pos rfl, hrest, List.length_cons]
      congr 2
      omega

theorem scan_eq {tok t : List UInt8} (hD : m.Str delim D) (h : m.Str p (tok ++ t))
    (htok : ∀ c ∈ tok, c ∉ D) (ht : t.headD 0 ∈ D ∨ t.headD 0 = 0) :
    scan m delim p = some (t.headD 0, p + tok.length + 1) := by
  induction tok generalizing p with
  | nil =>
      rw [scan_of_load h.load (ends_eq hD _), List.nil_append, decide_eq_true ht]
      rfl
  | cons c tok ih =>
      have hc : ¬ (c ∈ D ∨ c = 0) := not_or.mpr ⟨htok c List.mem_cons_self, h.head_ne⟩
      have hrest := ih h.tail fun d hd ↦ htok d (List.mem_cons_of_mem c hd)
      rw [scan_of_load h.load (ends_eq hD _), List.cons_append, List.headD_cons,
        decide_eq_false hc, if_neg Bool.false_ne_true, hrest, List.length_cons]
      congr 2
      omega

/-! ## One call -/

variable {s last : Option ℕ}

theorem strtokR_done {text : List UInt8} (hs : s.or last = some p) (hD : m.Str delim D)
    (h : m.Str p text) (hall : ∀ c ∈ text, c ∈ D) :
    strtokR m s delim last = some (m, none, none) := by
  rw [← List.append_nil text] at h
  have hcont : cont m delim p = some (0, p + text.length + 1) := cont_eq hD h hall hD.2
  simp only [strtokR, hs, hcont, Option.bind_eq_bind, Option.bind_some]
  rfl

section Token

variable {front tok rest : List UInt8}

theorem cont_token (hD : m.Str delim D) (h : m.Str p (front ++ (tok ++ rest)))
    (hfront : ∀ c ∈ front, c ∈ D) (hne : tok ≠ []) (htok : ∀ c ∈ tok, c ∉ D) :
    ∃ c, cont m delim p = some (c, p + front.length + 1) ∧ c ≠ 0 := by
  obtain ⟨c, t, rfl⟩ := List.exists_cons_of_ne_nil hne
  exact ⟨c, cont_eq hD h hfront (htok c List.mem_cons_self), h.append.head_ne⟩

theorem strtokR_last (hs : s.or last = some p) (hD : m.Str delim D)
    (h : m.Str p (front ++ tok)) (hfront : ∀ c ∈ front, c ∈ D) (hne : tok ≠ [])
    (htok : ∀ c ∈ tok, c ∉ D) :
    strtokR m s delim last = some (m, some (p + front.length), none) := by
  rw [← List.append_nil tok] at h
  obtain ⟨c, hcont, hc⟩ := cont_token hD h hfront hne htok
  obtain ⟨d, t, rfl⟩ := List.exists_cons_of_ne_nil hne
  have hscan : scan m delim (p + front.length + 1) = some (0, _) :=
    scan_eq hD h.append.tail (fun e he ↦ htok e (List.mem_cons_of_mem d he)) (.inr rfl)
  simp only [strtokR, hs, hcont, hscan, hc, Option.bind_eq_bind, Option.bind_some, if_false]
  rfl

theorem strtokR_next {d : UInt8} (hs : s.or last = some p) (hD : m.Str delim D)
    (h : m.Str p (front ++ (tok ++ d :: rest))) (hfront : ∀ c ∈ front, c ∈ D) (hne : tok ≠ [])
    (htok : ∀ c ∈ tok, c ∉ D) (hd : d ∈ D) :
    strtokR m s delim last = some (m.write (p + front.length + tok.length) [0],
      some (p + front.length), some (p + front.length + tok.length + 1)) := by
  obtain ⟨c, hcont, hc⟩ := cont_token hD h hfront hne htok
  have hload : m.load (p + front.length + tok.length) = some d := h.append.append.load
  have hd0 : d ≠ 0 := h.append.append.head_ne
  obtain ⟨e, t, rfl⟩ := List.exists_cons_of_ne_nil hne
  have hscan : scan m delim (p + front.length + 1) = some (d, _) :=
    scan_eq hD h.append.tail (fun e' he ↦ htok e' (List.mem_cons_of_mem e he)) (.inl hd)
  have hlength : p + front.length + 1 + t.length = p + front.length + (e :: t).length := by
    rw [List.length_cons]
    omega
  rw [hlength] at hscan
  have hstore := Ram.store_eq (m := m) (by rw [hload]; rfl) 0
  simp only [strtokR, hs, hcont, hscan, hc, hd0, Option.bind_eq_bind, Option.bind_some,
    if_false, Nat.add_sub_cancel, hstore]
  rfl

end Token

/-! ## A sequence of calls -/

def isDelim (D : List UInt8) (c : UInt8) : Bool := c ∈ D

/-- What was returned is `NULL`, or a token between `lo` and `hi` that is a string now. -/
def IsToken (m : Ram bits) (lo hi : ℕ) : Option ℕ → Option (List UInt8) → Prop
  | none, none => True
  | some a, some tok => m.Str a tok ∧ lo ≤ a ∧ a + tok.length ≤ hi
  | _, _ => False

/-- What the calls that go on at `p`, with `text` ahead and the delimiters `ps`, leave
behind.  A token stands where the text has it. -/
structure Tokenized (m m' : Ram bits) (ps : List (UInt8 → Bool)) (p : ℕ) (text : List UInt8)
    (toks : List (Option ℕ)) (expected : List (Option (List UInt8))) : Prop where
  places : toks = Tokens.starts ps p (some text)
  tokens : List.Forall₂ (IsToken m' p (p + text.length)) toks expected
  outside : ∀ b, b < p ∨ p + text.length ≤ b → m'.load b = m.load b
  inside : ∀ b, m'.load b = m.load b ∨ m'.load b = some 0

theorem IsToken.mono {lo lo' hi : ℕ} (hlo : lo' ≤ lo) {a : Option ℕ} {tok : Option (List UInt8)}
    (h : IsToken m lo hi a tok) : IsToken m lo' hi a tok := by
  cases a <;> cases tok
  · trivial
  · exact h
  · exact h
  · exact ⟨h.1, hlo.trans h.2.1, h.2.2⟩

/-- Where a delimiter string can stand: the calls store nothing in it. -/
def Apart (m : Ram bits) (p n : ℕ) (e : ℕ × List UInt8) : Prop :=
  m.Str e.1 e.2 ∧ (e.1 + e.2.length < p ∨ p + n ≤ e.1)

theorem calls_none (m : Ram bits) (delims : List ℕ) :
    calls m none none delims = some (m, List.replicate delims.length none) := by
  induction delims with
  | nil => rfl
  | cons delim delims ih =>
      have hnull : strtokR m none delim none = some (m, none, none) := rfl
      simp only [calls, hnull, ih, Option.bind_eq_bind, Option.bind_some]
      rfl

theorem calls_cons_none {m' : Ram bits} {tok : Option ℕ} {delims : List ℕ}
    (h : strtokR m s delim last = some (m', tok, none)) :
    calls m s last (delim :: delims) =
      some (m', tok :: List.replicate delims.length none) := by
  simp only [calls, h, calls_none, Option.bind_eq_bind, Option.bind_some]
  rfl

theorem forall₂_none (lo hi n : ℕ) :
    List.Forall₂ (IsToken m lo hi) (List.replicate n none) (List.replicate n none) := by
  induction n with
  | zero => exact .nil
  | succ n ih => exact .cons trivial ih

/-- The calls behind a token leave it as it is: its NUL stands before them. -/
theorem Tokenized.cons {m' : Ram bits} {front tok rest : List UInt8} {d : UInt8}
    {isSep : UInt8 → Bool} {ps : List (UInt8 → Bool)} {toks : List (Option ℕ)}
    {expected : List (Option (List UInt8))}
    (h : m.Str p (front ++ (tok ++ d :: rest)))
    (hfirst : Tokens.starts (isSep :: ps) p (some (front ++ (tok ++ d :: rest))) =
      some (p + front.length) :: toks)
    (hrest : Tokenized (m.write (p + front.length + tok.length) [0]) m'
      ps (p + front.length + tok.length + 1) rest toks expected) :
    Tokenized m m' (isSep :: ps) p (front ++ (tok ++ d :: rest)) (some (p + front.length) :: toks)
      (some tok :: expected) := by
  set q := p + front.length + tok.length with hq
  obtain ⟨-, htoks, hout, hin⟩ := hrest
  have hlength : (front ++ (tok ++ d :: rest)).length =
      front.length + tok.length + 1 + rest.length := by
    simp only [List.length_append, List.length_cons]
    omega
  have hmapped : m.Mapped q [(0 : UInt8)].length := by
    intro i hi
    obtain rfl : i = 0 := by simpa using hi
    rw [Nat.add_zero, h.append.append.load]
    rfl
  have htok : (m.write q [0]).Str (p + front.length) tok := by
    have hholds := (Ram.holds_append.mp h.append.holds).1
    rw [← List.append_nil tok]
    apply (hholds.write (.inl (le_refl _))).append_str
    · exact fun hzero ↦ h.2 (by simp [hzero])
    · exact ⟨⟨Ram.load_write hmapped Nat.one_pos, trivial⟩, by simp⟩
  refine ⟨hfirst.symm, ?_, ?_, ?_⟩
  · rw [hlength]
    apply List.Forall₂.cons
    · exact ⟨htok.congr fun i hi ↦ hout _ (by omega), by omega, by omega⟩
    · have hend : q + 1 + rest.length = p + (front.length + tok.length + 1 + rest.length) := by
        omega
      rw [hend] at htoks
      exact htoks.imp fun a b hab ↦ hab.mono (by omega)
  · intro b hb
    rw [hlength] at hb
    rw [hout b (by omega)]
    exact if_neg (by rw [List.length_singleton]; omega)
  · intro b
    rcases hin b with hsame | hzero
    · by_cases hbq : b = q
      · right
        rw [hsame, hbq]
        exact Ram.load_write hmapped Nat.one_pos
      · left
        rw [hsame]
        exact if_neg (by rw [List.length_singleton]; omega)
    · exact .inr hzero

theorem Tokenized.done (m : Ram bits) {ps : List (UInt8 → Bool)} {p : ℕ} {text : List UInt8}
    {n : ℕ} (h : Tokens.starts ps p (some text) = List.replicate n none) :
    Tokenized m m ps p text (List.replicate n none) (List.replicate n none) :=
  ⟨h.symm, forall₂_none _ _ n, fun _ _ ↦ rfl, fun _ ↦ .inl rfl⟩

/-- Induct on the calls.  The next one goes on behind the NUL that this one has stored. -/
theorem calls_eq (Ds : List (ℕ × List UInt8)) {text : List UInt8} (hs : s.or last = some p)
    (h : m.Str p text) (hDs : ∀ e ∈ Ds, Apart m p text.length e) :
    ∃ m' toks, calls m s last (Ds.map Prod.fst) = some (m', toks) ∧
      Tokenized m m' (Ds.map fun e ↦ isDelim e.2) p text toks
        (Tokens.run (Ds.map fun e ↦ isDelim e.2) (some text)) := by
  induction Ds generalizing m p s last text with
  | nil => exact ⟨m, [], rfl, Tokenized.done m (n := 0) rfl⟩
  | cons e Ds ih =>
      obtain ⟨delim, D⟩ := e
      obtain ⟨hD, -⟩ := hDs _ List.mem_cons_self
      have hDs' := fun e he ↦ hDs e (List.mem_cons_of_mem _ he)
      rw [List.map_cons, List.map_cons, Tokens.run_cons]
      rcases Tokens.exists_token (isDelim D) text with
        hall | ⟨front, tok, rest, rfl, hfront, hne, htok, hrest⟩
      · have hcall := strtokR_done hs hD h (by simpa [isDelim] using hall)
        refine ⟨m, _, calls_cons_none hcall, ?_⟩
        rw [Tokens.next_of_forall hall, Tokens.run_none, List.length_map, List.length_map]
        refine Tokenized.done m (n := Ds.length + 1) ?_
        rw [Tokens.starts_of_forall hall, List.length_map]
      · have hstarts := Tokens.starts_token hfront hne htok hrest
          (Ds.map fun e ↦ isDelim e.2) p
        rw [Tokens.next_eq hfront hne htok hrest]
        simp only [isDelim, decide_eq_true_eq] at hfront htok hrest
        cases rest with
        | nil =>
            rw [List.append_nil] at h hstarts ⊢
            refine ⟨m, _, calls_cons_none (strtokR_last hs hD h hfront hne htok), ?_, ?_,
              fun _ _ ↦ rfl, fun _ ↦ .inl rfl⟩
            · rw [hstarts, List.tail?_nil, Tokens.starts_none, List.length_map, List.length_map]
            apply List.Forall₂.cons
            · refine ⟨h.append, by omega, ?_⟩
              rw [List.length_append]
              omega
            · rw [List.tail?_nil, Tokens.run_none, List.length_map, List.length_map]
              exact forall₂_none _ _ Ds.length
        | cons d rest =>
            have hcall := strtokR_next hs hD h hfront hne htok (hrest d rfl)
            have hbehind := h.append.append.tail.write (r := [0]) (.inr (le_refl _))
            obtain ⟨m', toks, hrun, htoks⟩ := ih (s := none) rfl hbehind fun e he ↦ by
              obtain ⟨hstr, hdisj⟩ := hDs' e he
              simp only [List.length_append, List.length_cons] at hdisj
              refine ⟨hstr.write ?_, ?_⟩
              · rw [List.length_singleton]
                omega
              · omega
            have hplaces := hstarts.trans (congrArg (some (p + front.length) :: ·)
              htoks.places.symm)
            refine ⟨m', some (p + front.length) :: toks, ?_, Tokenized.cons h hplaces htoks⟩
            simp only [calls, hcall, hrun, Option.bind_eq_bind, Option.bind_some]
            rfl

end BaizeBoard.Strtok

namespace BaizeBoard

open Strtok

variable {bits : ℕ}

/-- With delimiters that may change from call to call, the calls return what a
tokenizer takes off the string: each token stands as a string in its place after
the last call, nothing outside the string is stored to, and only NULs are stored. -/
theorem strtokR_takes_tokens (m : Ram bits) (s : ℕ) (text : List UInt8) (last : Option ℕ)
    (Ds : List (ℕ × List UInt8)) (h : m.Str s text) (hDs : ∀ e ∈ Ds, Apart m s text.length e) :
    ∃ m' toks, calls m (some s) last (Ds.map Prod.fst) = some (m', toks) ∧
      Tokenized m m' (Ds.map fun e ↦ isDelim e.2) s text toks
        (Tokens.run (Ds.map fun e ↦ isDelim e.2) (some text)) :=
  calls_eq Ds rfl h hDs

/-- `strtok_r(s, ",", &last)`, `strtok_r(NULL, ";", &last)` and twice more on `",a,b;c"`. -/
theorem strtokR_takes_tokens_example :
    let m := Ram.image 64 0x100 (ascii ",a,b;c\x00,\x00;\x00".toList)
    let Ds := [(0x107, [0x2c]), (0x109, [0x3b]), (0x109, [0x3b]), (0x107, [0x2c])]
    ∃ m' toks, calls m (some 0x100) none (Ds.map Prod.fst) = some (m', toks) ∧
      Tokenized m m' (Ds.map fun e ↦ isDelim e.2) 0x100 (ascii ",a,b;c".toList) toks
        (Tokens.run (Ds.map fun e ↦ isDelim e.2) (some (ascii ",a,b;c".toList))) :=
  strtokR_takes_tokens _ _ _ _ _ (by decide) (by simp [Apart]; decide)

/-- With the same delimiters in all calls the tokens are the pieces between the
delimiters that are not empty, and `NULL` is returned behind the last one. -/
theorem strtokR_splits (m : Ram bits) (s : ℕ) (text : List UInt8) (last : Option ℕ) (delim : ℕ)
    (D : List UInt8) (n : ℕ) (h : m.Str s text) (hD : Apart m s text.length (delim, D)) :
    ∃ m' toks, calls m (some s) last (List.replicate n delim) = some (m', toks) ∧
      Tokenized m m' (List.replicate n (isDelim D)) s text toks
        (((Tokens.pieces (isDelim D) text).map some).take n ++
          List.replicate (n - (Tokens.pieces (isDelim D) text).length) none) := by
  have hs : (some s).or last = some s := rfl
  have hDs : ∀ e ∈ List.replicate n (delim, D), Apart m s text.length e :=
    fun e he ↦ List.eq_of_mem_replicate he ▸ hD
  obtain ⟨m', toks, hrun, htoks⟩ := calls_eq _ hs h hDs
  rw [List.map_replicate] at hrun htoks
  rw [Tokens.run_replicate] at htoks
  exact ⟨m', toks, hrun, htoks⟩

/-- `strtok_r` three times on `"a,,b"`. -/
theorem strtokR_splits_example :
    let m := Ram.image 64 0x100 (ascii "a,,b\x00,\x00".toList)
    let text := ascii "a,,b".toList
    ∃ m' toks, calls m (some 0x100) none (List.replicate 3 0x105) = some (m', toks) ∧
      Tokenized m m' (List.replicate 3 (isDelim [0x2c])) 0x100 text toks
        (((Tokens.pieces (isDelim [0x2c]) text).map some).take 3 ++
          List.replicate (3 - (Tokens.pieces (isDelim [0x2c]) text).length) none) :=
  strtokR_splits _ _ _ _ _ _ _ (by decide) (by simp [Apart]; decide)

end BaizeBoard
