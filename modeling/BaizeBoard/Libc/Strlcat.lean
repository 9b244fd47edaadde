import BaizeBoard.Library.Ram

/-!
# `strlen`, `strlcpy` and `strlcat`

The functions that build a string in a buffer of `dsize` bytes.  What they return
is the length of the string that they tried to make, so a caller can tell whether
it has been cut.
-/

namespace BaizeBoard

variable {bits : ℕ}

namespace Strlcat

/-- `while (*cursor) cursor++;` -/
def strlenEnd (m : Ram bits) (cursor : ℕ) : Option ℕ :=
  match h : m.load cursor with
  | none => none
  | some c => if c ≠ 0 then strlenEnd m (cursor + 1) else some cursor
termination_by 2 ^ bits - cursor
decreasing_by exact Ram.left_lt h

/-- `while (*src++) ;` -/
def traverse (m : Ram bits) (src : ℕ) : Option ℕ :=
  match h : m.load src with
  | none => none
  | some c => if c ≠ 0 then traverse m (src + 1) else some (src + 1)
termination_by 2 ^ bits - src
decreasing_by exact Ram.left_lt h

/-- `while (--nleft != 0)`, when `nleft` is one above the last argument.  It gives the
memory, `src` and `nleft` behind the loop, and `dst` between them. -/
def copy (m : Ram bits) (dst src : ℕ) : ℕ → Option (Ram bits × ℕ × ℕ × ℕ)
  | 0 => some (m, dst, src, 0)
  | nleft + 1 => do
      let c ← m.load src
      let m ← m.store dst c
      if c = 0 then return (m, dst + 1, src + 1, nleft + 1)
      copy m (dst + 1) (src + 1) nleft

/-- `while (n-- != 0 && *dst != '\0') dst++;` -/
def findEnd (m : Ram bits) (dst : ℕ) : ℕ → Option ℕ
  | 0 => some dst
  | n + 1 => do
      let c ← m.load dst
      if c ≠ 0 then findEnd m (dst + 1) n else return dst

/-- `while (*src != '\0')`: the memory, `dst` and `src` behind the loop. -/
def append (m : Ram bits) (dst src n : ℕ) : Option (Ram bits × ℕ × ℕ) :=
  match h : m.load src with
  | none => none
  | some c =>
      if c = 0 then some (m, dst, src)
      else if n ≠ 0 then
        match m.store dst c with
        | none => none
        | some m => append m (dst + 1) (src + 1) (n - 1)
      else append m dst (src + 1) n
termination_by 2 ^ bits - src
decreasing_by
  · exact Ram.left_lt h
  · exact Ram.left_lt h

end Strlcat

open Strlcat

def strlen (m : Ram bits) (s : ℕ) : Option ℕ := do
  let cursor ← strlenEnd m s
  return cursor - s

def strlcpy (m : Ram bits) (dst src dsize : ℕ) : Option (Ram bits × ℕ) := do
  let osrc := src
  let (m, dst, src, nleft) ←
    if dsize ≠ 0 then copy m dst src (dsize - 1) else some (m, dst, src, dsize)
  if nleft = 0 then
    let m ← if dsize ≠ 0 then m.store dst 0 else some m
    let src ← traverse m src
    return (m, src - osrc - 1)
  return (m, src - osrc - 1)

def strlcat (m : Ram bits) (dst src dsize : ℕ) : Option (Ram bits × ℕ) := do
  let odst := dst
  let osrc := src
  let dst ← findEnd m dst dsize
  let dlen := dst - odst
  let n := dsize - dlen
  if n = 0 then
    let len ← strlen m src
    return (m, dlen + len)
  let (m, dst, src) ← append m dst src (n - 1)
  let m ← m.store dst 0
  return (m, dlen + (src - osrc))

namespace Strlcat

variable {m : Ram bits} {dst src n : ℕ} {t u : List UInt8} {c : UInt8}

/-! ## The loops -/

theorem strlenEnd_of_load (h : m.load src = some c) :
    strlenEnd m src = if c ≠ 0 then strlenEnd m (src + 1) else some src := by
  rw [strlenEnd]
  exact Ram.match_load h _ _

theorem traverse_of_load (h : m.load src = some c) :
    traverse m src = if c ≠ 0 then traverse m (src + 1) else some (src + 1) := by
  rw [traverse]
  exact Ram.match_load h _ _

theorem append_of_load (h : m.load src = some c) :
    append m dst src n =
      if c = 0 then some (m, dst, src)
      else if n ≠ 0 then
        match m.store dst c with
        | none => none
        | some m => append m (dst + 1) (src + 1) (n - 1)
      else append m dst (src + 1) n := by
  rw [append]
  exact Ram.match_load h _ _

theorem strlenEnd_eq (h : m.Str src t) : strlenEnd m src = some (src + t.length) := by
  induction t generalizing src with
  | nil => exact strlenEnd_of_load h.load
  | cons c t ih =>
      rw [strlenEnd_of_load h.load, List.headD_cons, if_pos h.head_ne, ih h.tail,
        List.length_cons, Nat.add_assoc, Nat.add_comm 1]

theorem traverse_eq (h : m.Str src t) : traverse m src = some (src + t.length + 1) := by
  induction t generalizing src with
  | nil => exact traverse_of_load h.load
  | cons c t ih =>
      rw [traverse_of_load h.load, List.headD_cons, if_pos h.head_ne, ih h.tail,
        List.length_cons, Nat.add_assoc src 1, Nat.add_comm 1]

theorem strlen_eq (h : m.Str src t) : strlen m src = some t.length := by
  rw [strlen, strlenEnd_eq h]
  exact congrArg some (Nat.add_sub_cancel_left src t.length)

/-! ## Copying, one character at a time -/

/-- The source stands apart from the `n` bytes at the destination. -/
def Apart (dst n src : ℕ) (t : List UInt8) : Prop := src + t.length < dst ∨ dst + n ≤ src

theorem Apart.tail (h : Apart dst (n + 1) src (c :: t)) : Apart (dst + 1) n (src + 1) t := by
  unfold Apart at h ⊢
  rw [List.length_cons] at h
  omega

theorem Apart.mono {k : ℕ} (h : Apart dst n src t) (hk : k ≤ n) : Apart dst k src t := by
  unfold Apart at h ⊢
  omega

theorem mapped_tail {d : UInt8} (h : m.Mapped dst (n + 1)) :
    (m.write dst [d]).Mapped (dst + 1) n := by
  rw [Nat.add_comm n 1] at h
  exact Ram.mapped_write.mpr h.right

theorem store_head (h : m.Mapped dst (n + 1)) (d : UInt8) :
    m.store dst d = some (m.write dst [d]) := Ram.store_eq (h 0 (Nat.succ_pos n)) d

theorem str_tail (h : m.Str src (c :: t)) (hapart : Apart dst (n + 1) src (c :: t)) (d : UInt8) :
    (m.write dst [d]).Str (src + 1) t := by
  apply h.tail.write
  unfold Apart at hapart
  rw [List.length_cons] at hapart
  rw [List.length_singleton]
  omega

theorem copy_cons (h : m.Str src (c :: t)) (hmapped : m.Mapped dst (n + 1)) {k : ℕ} :
    copy m dst src (k + 1) = copy (m.write dst [c]) (dst + 1) (src + 1) k := by
  simp only [copy, h.load, List.headD_cons, store_head hmapped, h.head_ne, if_false,
    Option.bind_eq_bind, Option.bind_some]

theorem copy_cut (h : m.Str src t) (hn : n ≤ t.length) (hmapped : m.Mapped dst n)
    (hapart : Apart dst n src t) :
    copy m dst src n = some (m.write dst (t.take n), dst + n, src + n, 0) := by
  induction n generalizing m dst src t with
  | zero =>
      rw [List.take_zero, Ram.write_nil]
      rfl
  | succ n ih =>
      cases t with
      | nil => cases hn
      | cons c t =>
          rw [copy_cons h hmapped, ih (str_tail h hapart c) (Nat.le_of_succ_le_succ hn)
            (mapped_tail hmapped) hapart.tail, Ram.write_cons, List.take_succ_cons,
            Nat.add_assoc dst, Nat.add_assoc src, Nat.add_comm 1]

theorem copy_whole (h : m.Str src t) (hn : t.length < n) (hmapped : m.Mapped dst (t.length + 1))
    (hapart : Apart dst (t.length + 1) src t) :
    copy m dst src n = some (m.write dst (t ++ [0]), dst + (t.length + 1),
      src + (t.length + 1), n - t.length) := by
  induction t generalizing m dst src n with
  | nil =>
      obtain ⟨k, rfl⟩ := Nat.exists_eq_succ_of_ne_zero (Nat.ne_of_gt hn)
      simp only [copy, h.load, List.headD_nil, store_head hmapped, if_true, Option.bind_eq_bind,
        Option.bind_some]
      rfl
  | cons c t ih =>
      obtain ⟨k, rfl⟩ := Nat.exists_eq_succ_of_ne_zero (Nat.ne_zero_of_lt hn)
      rw [List.length_cons] at hn hmapped hapart
      rw [copy_cons h hmapped, ih (str_tail h hapart c) (Nat.lt_of_succ_lt_succ hn)
        (mapped_tail hmapped) hapart.tail, Ram.write_cons, List.cons_append, List.length_cons,
        Nat.add_assoc dst, Nat.add_assoc src, Nat.add_comm 1, Nat.succ_sub_succ]

theorem append_cons {k : ℕ} (h : m.Str src (c :: t)) (hmapped : m.Mapped dst (k + 1)) :
    append m dst src (n + 1) = append (m.write dst [c]) (dst + 1) (src + 1) n := by
  rw [append_of_load h.load, List.headD_cons, if_neg h.head_ne, if_pos (Nat.succ_ne_zero n),
    store_head hmapped, Nat.add_sub_cancel]

theorem append_zero (h : m.Str src t) :
    append m dst src 0 = some (m, dst, src + t.length) := by
  induction t generalizing src with
  | nil =>
      rw [append_of_load h.load]
      rfl
  | cons c t ih =>
      rw [append_of_load h.load, List.headD_cons, if_neg h.head_ne,
        if_neg (fun hzero ↦ hzero rfl), ih h.tail, List.length_cons, Nat.add_assoc,
        Nat.add_comm 1]

theorem append_eq (h : m.Str src t) (hmapped : m.Mapped dst (min t.length n))
    (hapart : Apart dst (min t.length n) src t) :
    append m dst src n =
      some (m.write dst (t.take n), dst + min t.length n, src + t.length) := by
  induction t generalizing m dst src n with
  | nil =>
      rw [append_of_load h.load, List.take_nil, Ram.write_nil, List.length_nil, Nat.zero_min]
      rfl
  | cons c t ih =>
      cases n with
      | zero =>
          rw [append_zero h, List.take_zero, Ram.write_nil, Nat.min_zero]
          rfl
      | succ n =>
          rw [List.length_cons, Nat.succ_min_succ] at hmapped hapart
          rw [append_cons h hmapped, ih (str_tail h hapart c)
            (mapped_tail hmapped) hapart.tail, Ram.write_cons, List.take_succ_cons,
            List.length_cons, Nat.succ_min_succ, Nat.add_assoc dst, Nat.add_assoc src,
            Nat.add_comm 1, Nat.add_comm 1]

theorem findEnd_eq (h : m.Str dst u) (hn : u.length < n) :
    findEnd m dst n = some (dst + u.length) := by
  induction u generalizing dst n with
  | nil =>
      obtain ⟨k, rfl⟩ := Nat.exists_eq_succ_of_ne_zero (Nat.ne_of_gt hn)
      simp only [findEnd, h.load, List.headD_nil, ne_eq, not_true, if_false, Option.bind_eq_bind,
        Option.bind_some]
      rfl
  | cons c u ih =>
      obtain ⟨k, rfl⟩ := Nat.exists_eq_succ_of_ne_zero (Nat.ne_zero_of_lt hn)
      simp only [findEnd, h.load, List.headD_cons, ne_eq, h.head_ne, not_false_iff, if_true,
        Option.bind_eq_bind, Option.bind_some]
      rw [ih h.tail (Nat.lt_of_succ_lt_succ hn), List.length_cons, Nat.add_assoc, Nat.add_comm 1]

/-- There is no NUL among the bytes that may be looked at. -/
theorem findEnd_full (h : m.Holds dst u) (hu : 0 ∉ u) :
    findEnd m dst u.length = some (dst + u.length) := by
  induction u generalizing dst with
  | nil => rfl
  | cons c u ih =>
      obtain ⟨hc, hrest⟩ := List.ne_and_not_mem_of_not_mem_cons hu
      simp only [List.length_cons, findEnd, h.1, ne_eq, hc.symm, not_false_iff, if_true,
        Option.bind_eq_bind, Option.bind_some]
      rw [ih h.2 hrest, Nat.add_assoc, Nat.add_comm 1]

/-! ## The functions -/

theorem strlcpy_eq (h : m.Str src t) {dsize : ℕ}
    (hmapped : m.Mapped dst (min (t.length + 1) dsize))
    (hapart : Apart dst (min (t.length + 1) dsize) src t) :
    strlcpy m dst src dsize =
      some (if dsize = 0 then m else m.write dst (t.take (dsize - 1) ++ [0]), t.length) := by
  rcases Nat.eq_zero_or_pos dsize with rfl | hpos
  · have hlength : src + t.length + 1 - src - 1 = t.length := by omega
    simp only [strlcpy, ne_eq, not_true, if_false, if_true, Option.bind_eq_bind, Option.bind_some,
      traverse_eq h, hlength]
    rfl
  obtain ⟨n, rfl⟩ := Nat.exists_eq_succ_of_ne_zero (Nat.ne_of_gt hpos)
  rcases Nat.lt_or_ge t.length n with hlt | hge
  · rw [Nat.min_eq_left (by omega)] at hmapped hapart
    have hleft : n - t.length ≠ 0 := by omega
    have hlength : src + (t.length + 1) - src - 1 = t.length := by omega
    simp only [strlcpy, ne_eq, Nat.succ_ne_zero, not_false_iff, if_true, Nat.succ_sub_one,
      copy_whole h hlt hmapped hapart, hleft, hlength, if_false,
      List.take_of_length_le (Nat.le_of_lt hlt), Option.bind_eq_bind, Option.bind_some]
    rfl
  · rw [Nat.min_eq_right (by omega)] at hmapped hapart
    have hcopy := copy_cut h hge (hmapped.mono (by omega)) (hapart.mono (by omega))
    have htake : (t.take n).length = n := List.length_take_of_le hge
    have hstore : (m.write dst (t.take n)).store (dst + n) 0 =
        some (m.write dst (t.take n ++ [0])) := by
      have hbehind := Ram.store_write (l := t.take n) (by rwa [htake]) 0
      rwa [htake] at hbehind
    have hrest : (m.write dst (t.take n ++ [0])).Str (src + n) (t.drop n) := by
      have hsplit := h
      rw [← List.take_append_drop n t] at hsplit
      have hdrop := hsplit.append
      rw [htake] at hdrop
      apply hdrop.write
      unfold Apart at hapart
      rw [List.length_append, htake, List.length_singleton, List.length_drop]
      omega
    have hlength : src + n + (t.drop n).length + 1 - src - 1 = t.length := by
      rw [List.length_drop]
      omega
    simp only [strlcpy, ne_eq, Nat.succ_ne_zero, not_false_iff, if_true, Nat.succ_sub_one, hcopy,
      hstore, traverse_eq hrest, hlength, if_false, Option.bind_eq_bind, Option.bind_some]
    rfl

theorem strlcat_eq (hu : m.Str dst u) (ht : m.Str src t) {dsize : ℕ} (hlt : u.length < dsize)
    (hmapped : m.Mapped (dst + u.length) (min t.length (dsize - u.length - 1) + 1))
    (hapart : Apart (dst + u.length) (min t.length (dsize - u.length - 1) + 1) src t) :
    strlcat m dst src dsize =
      some (m.write (dst + u.length) (t.take (dsize - u.length - 1) ++ [0]),
        u.length + t.length) := by
  have hdlen : dst + u.length - dst = u.length := by omega
  have hn : dsize - u.length ≠ 0 := by omega
  have happend := append_eq ht (hmapped.mono (Nat.le_succ _)) (hapart.mono (Nat.le_succ _))
  have htake : (t.take (dsize - u.length - 1)).length = min t.length (dsize - u.length - 1) := by
    rw [List.length_take, Nat.min_comm]
  have hstore : (m.write (dst + u.length) (t.take (dsize - u.length - 1))).store
      (dst + u.length + min t.length (dsize - u.length - 1)) 0 =
        some (m.write (dst + u.length) (t.take (dsize - u.length - 1) ++ [0])) := by
    have hbehind := Ram.store_write (l := t.take (dsize - u.length - 1)) (by rwa [htake]) 0
    rwa [htake] at hbehind
  have hlength : u.length + (src + t.length - src) = u.length + t.length := by omega
  simp only [strlcat, findEnd_eq hu hlt, hdlen, hn, if_false, happend, hstore, hlength,
    Option.bind_eq_bind, Option.bind_some]
  rfl

/-- A buffer without a NUL is left as it is. -/
theorem strlcat_full (hu : m.Holds dst u) (hnul : 0 ∉ u) (ht : m.Str src t) :
    strlcat m dst src u.length = some (m, u.length + t.length) := by
  have hdlen : dst + u.length - dst = u.length := by omega
  simp only [strlcat, findEnd_full hu hnul, hdlen, Nat.sub_self, if_true, strlen_eq ht,
    Option.bind_eq_bind, Option.bind_some]
  rfl

/-! ## Building a string in a buffer -/

/-- `strlcat` of each of `srcs`, with what each call returns. -/
def appendAll (m : Ram bits) (dst dsize : ℕ) : List ℕ → Option (Ram bits × List ℕ)
  | [] => some (m, [])
  | src :: srcs => do
      let (m, len) ← strlcat m dst src dsize
      let (m, lens) ← appendAll m dst dsize srcs
      return (m, len :: lens)

/-- `strlcpy` of the first string and `strlcat` of the others. -/
def build (m : Ram bits) (dst dsize src : ℕ) (srcs : List ℕ) : Option (Ram bits × List ℕ) := do
  let (m, len) ← strlcpy m dst src dsize
  let (m, lens) ← appendAll m dst dsize srcs
  return (m, len :: lens)

/-- What a buffer of `n` bytes holds of the text `w`, and what is the same as in `m`. -/
structure Built (m m' : Ram bits) (dst n : ℕ) (w : List UInt8) : Prop where
  str : m'.Str dst (w.take (n - 1))
  outside : ∀ a, a < dst ∨ dst + n ≤ a → m'.load a = m.load a
  mapped : m'.Mapped dst n

variable {m' : Ram bits} {w : List UInt8}

theorem built_write (h : Built m m' dst n w) (hn : 0 < n) (ht : 0 ∉ t) :
    Built m (m'.write (dst + (w.take (n - 1)).length)
      (t.take (n - (w.take (n - 1)).length - 1) ++ [0])) dst n (w ++ t) := by
  obtain ⟨hstr, hout, hmapped⟩ := h
  have hlength : (w.take (n - 1)).length ≤ n - 1 := List.length_take_le _ _
  have htake : (t.take (n - (w.take (n - 1)).length - 1)).length ≤
      n - (w.take (n - 1)).length - 1 := List.length_take_le _ _
  have hnul : 0 ∉ t.take (n - (w.take (n - 1)).length - 1) := fun h ↦ ht (List.mem_of_mem_take h)
  refine ⟨?_, fun a ha ↦ ?_, Ram.mapped_write.mpr hmapped⟩
  · have hall : (w ++ t).take (n - 1) =
        w.take (n - 1) ++ t.take (n - (w.take (n - 1)).length - 1) := by
      rw [List.take_append]
      congr 2
      rw [List.length_take]
      omega
    rw [hall]
    apply Ram.Holds.append_str
    · exact hstr.holds.write (.inl (Nat.le_refl _))
    · exact hstr.2
    · refine ⟨Ram.holds_write ?_, hnul⟩
      intro i hi
      rw [List.length_append, List.length_singleton] at hi
      rw [Nat.add_assoc]
      exact hmapped _ (by omega)
  · rw [← hout a ha]
    rcases ha with ha | ha
    · exact Ram.load_write_of_lt (by omega)
    · apply Ram.load_write_of_ge
      rw [List.length_append, List.length_singleton]
      omega

/-- A string that can be appended to the buffer: it stands apart from it. -/
def Source (m : Ram bits) (dst n : ℕ) (e : ℕ × List UInt8) : Prop :=
  m.Str e.1 e.2 ∧ Apart dst n e.1 e.2

theorem Built.source {e : ℕ × List UInt8} (h : Built m m' dst n w) (he : Source m dst n e) :
    m'.Str e.1 e.2 := by
  apply he.1.congr
  intro i hi
  have hapart := he.2
  unfold Apart at hapart
  exact h.outside _ (by omega)

theorem Built.strlcat {e : ℕ × List UInt8} (h : Built m m' dst n w) (hn : 0 < n)
    (he : Source m dst n e) :
    ∃ m'' len, BaizeBoard.strlcat m' dst e.1 n = some (m'', len) ∧
      Built m m'' dst n (w ++ e.2) ∧ (n ≤ w.length ∨ n ≤ len ↔ n ≤ (w ++ e.2).length) := by
  have hu : (w.take (n - 1)).length = min (n - 1) w.length := List.length_take
  have hmapped : m'.Mapped (dst + (w.take (n - 1)).length)
      (min e.2.length (n - (w.take (n - 1)).length - 1) + 1) := by
    intro i hi
    rw [Nat.add_assoc]
    exact h.mapped _ (by omega)
  have hapart : Apart (dst + (w.take (n - 1)).length)
      (min e.2.length (n - (w.take (n - 1)).length - 1) + 1) e.1 e.2 := by
    have happ := he.2
    unfold Apart at happ ⊢
    omega
  have hcat := strlcat_eq h.str (h.source he) (by omega) hmapped hapart
  refine ⟨_, _, hcat, built_write h hn he.1.2, ?_⟩
  rw [List.length_append]
  omega

theorem appendAll_eq (Ss : List (ℕ × List UInt8)) (h : Built m m' dst n w) (hn : 0 < n)
    (hS : ∀ e ∈ Ss, Source m dst n e) :
    ∃ m'' lens, appendAll m' dst n (Ss.map Prod.fst) = some (m'', lens) ∧
      Built m m'' dst n (w ++ Ss.flatMap Prod.snd) ∧
      ((n ≤ w.length ∨ ∃ len ∈ lens, n ≤ len) ↔ n ≤ (w ++ Ss.flatMap Prod.snd).length) := by
  induction Ss generalizing m' w with
  | nil =>
      refine ⟨m', [], rfl, ?_, ?_⟩
      · simpa using h
      · simp
  | cons e Ss ih =>
      obtain ⟨m1, len, hcat, hbuilt, hcut⟩ := h.strlcat hn (hS e List.mem_cons_self)
      obtain ⟨m2, lens, hrun, hbuilt', hcut'⟩ := ih hbuilt
        fun d hd ↦ hS d (List.mem_cons_of_mem e hd)
      refine ⟨m2, len :: lens, ?_, ?_, ?_⟩
      · simp only [List.map_cons, appendAll, hcat, hrun, Option.bind_eq_bind, Option.bind_some]
        rfl
      · rwa [List.flatMap_cons, ← List.append_assoc]
      · rw [List.flatMap_cons, ← List.append_assoc, ← hcut', ← hcut, List.exists_mem_cons_iff,
          or_assoc]

theorem built_strlcpy (hn : 0 < n) (hmapped : m.Mapped dst n) (h : Source m dst n (src, t)) :
    ∃ m', strlcpy m dst src n = some (m', t.length) ∧ Built m m' dst n t := by
  obtain ⟨hstr, hapart⟩ : m.Str src t ∧ Apart dst n src t := h
  have hcopy := strlcpy_eq hstr (hmapped.mono (Nat.min_le_right _ _))
    (hapart.mono (Nat.min_le_right _ _))
  rw [if_neg (Nat.ne_of_gt hn)] at hcopy
  have htake : (t.take (n - 1)).length ≤ n - 1 := List.length_take_le _ _
  have hlength : (t.take (n - 1) ++ [0]).length ≤ n := by
    rw [List.length_append, List.length_singleton]
    omega
  refine ⟨_, hcopy, ⟨Ram.holds_write (hmapped.mono hlength), ?_⟩, fun a ha ↦ ?_,
    Ram.mapped_write.mpr hmapped⟩
  · exact fun hmem ↦ hstr.2 (List.mem_of_mem_take hmem)
  · rcases ha with ha | ha
    · exact Ram.load_write_of_lt ha
    · exact Ram.load_write_of_ge (by omega)

end Strlcat

/-- A buffer that is filled by `strlcpy` and then `strlcat` ends up with what fits of all
the strings together, as a string; nothing is stored behind it.  The result has been
cut exactly where one of the calls returned `dsize` or more. -/
theorem strlcat_builds (m : Ram bits) (dst dsize src : ℕ) (t : List UInt8)
    (Ss : List (ℕ × List UInt8)) (hpos : 0 < dsize) (hmapped : m.Mapped dst dsize)
    (ht : Source m dst dsize (src, t)) (hS : ∀ e ∈ Ss, Source m dst dsize e) :
    ∃ m' lens, build m dst dsize src (Ss.map Prod.fst) = some (m', lens) ∧
      m'.Str dst ((t ++ Ss.flatMap Prod.snd).take (dsize - 1)) ∧
      (∀ a, a < dst ∨ dst + dsize ≤ a → m'.load a = m.load a) ∧
      ((∃ len ∈ lens, dsize ≤ len) ↔ dsize ≤ (t ++ Ss.flatMap Prod.snd).length) := by
  obtain ⟨m1, hcopy, hbuilt⟩ := built_strlcpy hpos hmapped ht
  obtain ⟨m2, lens, hrun, hbuilt', hcut⟩ := appendAll_eq Ss hbuilt hpos hS
  refine ⟨m2, t.length :: lens, ?_, hbuilt'.str, hbuilt'.outside, ?_⟩
  · simp only [build, hcopy, hrun, Option.bind_eq_bind, Option.bind_some]
    rfl
  · rw [← hcut, List.exists_mem_cons_iff]

/-- `"ab"`, `"cd"` and `"e"` in a buffer of four bytes. -/
theorem strlcat_builds_example :
    let m := Ram.image 64 0x100 [0x61, 0x62, 0, 0x63, 0x64, 0, 0x65, 0, 1, 1, 1, 1]
    let t : List UInt8 := [0x61, 0x62]
    let Ss : List (ℕ × List UInt8) := [(0x103, [0x63, 0x64]), (0x106, [0x65])]
    ∃ m' lens, build m 0x108 4 0x100 (Ss.map Prod.fst) = some (m', lens) ∧
      m'.Str 0x108 ((t ++ Ss.flatMap Prod.snd).take (4 - 1)) ∧
      (∀ a, a < 0x108 ∨ 0x108 + 4 ≤ a → m'.load a = m.load a) ∧
      ((∃ len ∈ lens, 4 ≤ len) ↔ 4 ≤ (t ++ Ss.flatMap Prod.snd).length) := by
  apply strlcat_builds
  · decide
  · decide
  · exact ⟨by decide, by unfold Apart; decide⟩
  · intro e he
    rw [List.mem_cons, List.mem_singleton] at he
    rcases he with rfl | rfl <;> exact ⟨by decide, by unfold Apart; decide⟩

end BaizeBoard
