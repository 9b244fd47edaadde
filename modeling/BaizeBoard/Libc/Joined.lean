import BaizeBoard.Libc.Strlcat
import BaizeBoard.Libc.Strtok

/-!
# Joining strings and splitting them again

`strlcpy` and `strlcat` put words with a separator between them into a buffer, and
`strtok_r` takes them out of it.
-/

namespace BaizeBoard

variable {bits : ℕ}

namespace JoinedText

variable {d : UInt8} {t : List UInt8} {m m' : Ram bits} {dst n sep : ℕ}

/-- The text of the words `t` and those of `Ss`, with `d` between them. -/
def joined (d : UInt8) (t : List UInt8) (Ss : List (ℕ × List UInt8)) : List UInt8 :=
  t ++ Ss.flatMap fun e ↦ d :: e.2

/-- A separator before each string. -/
def separated (sep : ℕ) (d : UInt8) (Ss : List (ℕ × List UInt8)) : List (ℕ × List UInt8) :=
  Ss.flatMap fun e ↦ [(sep, [d]), e]

theorem map_fst_separated (sep : ℕ) (d : UInt8) (Ss : List (ℕ × List UInt8)) :
    (separated sep d Ss).map Prod.fst = Ss.flatMap fun e ↦ [sep, e.1] := by
  simp [separated, List.map_flatMap]

theorem append_separated (sep : ℕ) (d : UInt8) (t : List UInt8) (Ss : List (ℕ × List UInt8)) :
    t ++ (separated sep d Ss).flatMap Prod.snd = joined d t Ss := by
  simp [separated, joined, List.flatMap_assoc]

theorem mem_separated {Ss : List (ℕ × List UInt8)} {e : ℕ × List UInt8}
    (h : e ∈ separated sep d Ss) : e = (sep, [d]) ∨ e ∈ Ss := by
  obtain ⟨f, hf, he⟩ := List.mem_flatMap.mp h
  rcases List.mem_cons.mp he with rfl | he
  · exact .inl rfl
  · rw [List.mem_singleton.mp he]
    exact .inr hf

/-- A word that is found again: it is not empty, and the separator is not in it. -/
def IsWord (d : UInt8) (t : List UInt8) : Prop := t ≠ [] ∧ d ∉ t

theorem IsWord.not_isDelim (h : IsWord d t) : ∀ c ∈ t, ¬ Strtok.isDelim [d] c := by
  intro c hc hdelim
  have hcd : c = d := by simpa [Strtok.isDelim] using hdelim
  exact h.2 (hcd ▸ hc)

theorem pieces_joined (Ss : List (ℕ × List UInt8)) (ht : IsWord d t)
    (hSs : ∀ e ∈ Ss, IsWord d e.2) :
    Tokens.pieces (Strtok.isDelim [d]) (joined d t Ss) = t :: Ss.map Prod.snd := by
  induction Ss generalizing t with
  | nil =>
      rw [joined, List.flatMap_nil, List.append_nil, Tokens.pieces_token ht.1 ht.not_isDelim]
      rfl
  | cons e Ss ih =>
      have hd : Strtok.isDelim [d] d := by simp [Strtok.isDelim]
      have hrest := ih (hSs e List.mem_cons_self) fun f hf ↦ hSs f (List.mem_cons_of_mem e hf)
      rw [joined, List.flatMap_cons, List.cons_append,
        Tokens.pieces_token_cons ht.1 ht.not_isDelim hd, ← joined, hrest]
      rfl

end JoinedText

open JoinedText

/-- Words that a buffer has room for, joined in it with a separator by `strlcpy` and `strlcat`,
are what `strtok_r` takes out of it again, one after the other, before it returns `NULL`.
None of the calls that joined them has returned `dsize` or more. -/
theorem strtokR_splits_joined (m : Ram bits) (dst dsize src sep : ℕ) (t : List UInt8) (d : UInt8)
    (Ss : List (ℕ × List UInt8)) (last : Option ℕ) (n : ℕ) (hmapped : m.Mapped dst dsize)
    (hsep : Strlcat.Source m dst dsize (sep, [d]))
    (hwords : ∀ e ∈ (src, t) :: Ss, Strlcat.Source m dst dsize e ∧ IsWord d e.2)
    (hroom : (joined d t Ss).length < dsize) :
    ∃ m₁ lens m₂ toks,
      Strlcat.build m dst dsize src (Ss.flatMap fun e ↦ [sep, e.1]) = some (m₁, lens) ∧
      (∀ len ∈ lens, len < dsize) ∧
      Strtok.calls m₁ (some dst) last (List.replicate n sep) = some (m₂, toks) ∧
      Strtok.Tokenized m₁ m₂ (List.replicate n (Strtok.isDelim [d])) dst (joined d t Ss) toks
        (((t :: Ss.map Prod.snd).map some).take n ++
          List.replicate (n - (Ss.length + 1)) none) := by
  have hpos : 0 < dsize := Nat.zero_lt_of_lt hroom
  obtain ⟨hfirst, ht⟩ := hwords _ List.mem_cons_self
  have hsources : ∀ e ∈ separated sep d Ss, Strlcat.Source m dst dsize e := by
    intro e he
    rcases mem_separated he with rfl | he
    · exact hsep
    · exact (hwords e (List.mem_cons_of_mem _ he)).1
  -- what the calls that join the words leave in the buffer
  obtain ⟨m₀, hcopy, hbuilt₀⟩ := Strlcat.built_strlcpy hpos hmapped hfirst
  obtain ⟨m₁, lens, hrun, hbuilt, hcut⟩ := Strlcat.appendAll_eq _ hbuilt₀ hpos hsources
  rw [map_fst_separated] at hrun
  rw [append_separated] at hbuilt hcut
  have hstr := hbuilt.str
  rw [List.take_of_length_le (by omega)] at hstr
  have hwhole : ¬ (dsize ≤ t.length ∨ ∃ len ∈ lens, dsize ≤ len) := by
    rw [hcut]
    omega
  rw [not_or] at hwhole
  -- the separator still stands where it was
  have hdelim : Strtok.Apart m₁ dst (joined d t Ss).length (sep, [d]) := by
    refine ⟨hbuilt.source hsep, ?_⟩
    have hapart := hsep.2
    unfold Strlcat.Apart at hapart
    omega
  have hDs : ∀ e ∈ List.replicate n (sep, [d]), Strtok.Apart m₁ dst (joined d t Ss).length e :=
    fun e he ↦ List.eq_of_mem_replicate he ▸ hdelim
  have hstart : (some dst).or last = some dst := rfl
  obtain ⟨m₂, toks, hcalls, htoks⟩ := Strtok.calls_eq _ hstart hstr hDs
  rw [List.map_replicate] at hcalls htoks
  rw [Tokens.run_replicate, pieces_joined Ss ht fun e he ↦
    (hwords e (List.mem_cons_of_mem _ he)).2] at htoks
  refine ⟨m₁, t.length :: lens, m₂, toks, ?_, ?_, hcalls, ?_⟩
  · simp only [Strlcat.build, hcopy, hrun, Option.bind_eq_bind, Option.bind_some]
    rfl
  · intro len hlen
    rcases List.mem_cons.mp hlen with rfl | hlen
    · exact Nat.lt_of_not_le hwhole.1
    · exact Nat.lt_of_not_le fun hle ↦ hwhole.2 ⟨len, hlen, hle⟩
  · simpa using htoks

/-- `"ab"` and `"cd"` with a comma, in a buffer of eight bytes, and three calls of `strtok_r`. -/
theorem strtokR_splits_joined_example :
    let m := Ram.image 64 0x100 [0x61, 0x62, 0, 0x63, 0x64, 0, 0x2c, 0, 1, 1, 1, 1, 1, 1, 1, 1]
    let t : List UInt8 := [0x61, 0x62]
    let Ss : List (ℕ × List UInt8) := [(0x103, [0x63, 0x64])]
    ∃ m₁ lens m₂ toks,
      Strlcat.build m 0x108 8 0x100 (Ss.flatMap fun e ↦ [0x106, e.1]) = some (m₁, lens) ∧
      (∀ len ∈ lens, len < 8) ∧
      Strtok.calls m₁ (some 0x108) none (List.replicate 3 0x106) = some (m₂, toks) ∧
      Strtok.Tokenized m₁ m₂ (List.replicate 3 (Strtok.isDelim [0x2c])) 0x108
        (joined 0x2c t Ss) toks
        (((t :: Ss.map Prod.snd).map some).take 3 ++
          List.replicate (3 - (Ss.length + 1)) none) := by
  apply strtokR_splits_joined
  · decide
  · exact ⟨by decide, by unfold Strlcat.Apart; decide⟩
  · intro e he
    rw [List.mem_cons, List.mem_singleton] at he
    rcases he with rfl | rfl
    · exact ⟨⟨by decide, by unfold Strlcat.Apart; decide⟩, by unfold IsWord; decide⟩
    · exact ⟨⟨by decide, by unfold Strlcat.Apart; decide⟩, by unfold IsWord; decide⟩
  · decide

end BaizeBoard
