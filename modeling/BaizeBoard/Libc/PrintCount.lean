import BaizeBoard.Libc.VprintfRun

/-!
# The result of `vprintf` against its output

The comment at `count` says that it holds the number of printed characters.
Two calls of `putchar` are not followed by a `count++`: the one for `%%` and the
one for the sign of a negative number.
-/

namespace BaizeBoard

/-- A field with a character that `vprintf` puts without counting it. -/
def Field.uncounted : Field → Bool
  | .lit _ => false
  | .percent => true
  | .str _ => false
  | .number opts conv arg => (conv = .d ∨ conv = .i) ∧ signedValue opts arg < 0

theorem length_render (field : Field) :
    (field.render.length : ℤ) = field.counted + if field.uncounted then 1 else 0 := by
  cases field with
  | lit c => rfl
  | percent => rfl
  | str s => simp [Field.render, Field.counted, Field.uncounted]
  | number opts conv arg => simp [Field.render, Field.counted, Field.uncounted]

theorem length_flatMap_render (fields : List Field) :
    ((fields.flatMap Field.render).length : ℤ) =
      (fields.map Field.counted).sum + fields.countP Field.uncounted := by
  induction fields with
  | nil => rfl
  | cons field fields ih =>
      have hfield := length_render field
      rw [List.flatMap_cons, List.length_append, Nat.cast_add, hfield, ih, List.map_cons,
        List.sum_cons, List.countP_cons]
      split <;> push_cast <;> ring

namespace Vprintf

/-- On a format that it supports `vprintf` returns the number of bytes it has put iff no
field is a `%%` or a negative `%d` or `%i`. -/
theorem vprintf_counts_iff (mem : Mem) (asserts : Bool) (fmt : ℕ) (f : List UInt8)
    (args : List Arg) (fields : List Field) (hfmt : CString mem fmt f)
    (hdoc : (parse .printf f).Documented) (hvalid : ∀ a ∈ args, a.Valid mem)
    (hmatch : (parse .printf f).fields args = some fields) (beyond : VaList) :
    ∃ result out, Returns mem asserts fmt (slots args beyond) result out ∧
      (result = out.length ↔ ∀ field ∈ fields, field.uncounted = false) := by
  have hrun := returns_fields asserts hfmt hvalid hmatch beyond
  rw [if_pos hdoc] at hrun
  refine ⟨_, _, hrun, ?_⟩
  have hnone : fields.countP Field.uncounted = 0 ↔ ∀ field ∈ fields, field.uncounted = false := by
    simp [List.countP_eq_zero]
  rw [length_flatMap_render, ← hnone]
  omega

/-- `printf("%d:%s", 7, "ok")` -/
theorem vprintf_counts_iff_example :
    let mem := rodata 16 (ascii ['%', 'd', ':', '%', 's'] ++ 0 :: ascii ['o', 'k'])
    let fields : List Field := [.number [] .d 7, .lit ':'.toUInt8, .str (ascii ['o', 'k'])]
    let args := [Arg.word 7, .str 22 (ascii ['o', 'k'])]
    ∃ result out, Returns mem true 16 (slots args (.const 0)) result out ∧
      (result = out.length ↔ ∀ field ∈ fields, field.uncounted = false) :=
  vprintf_counts_iff _ true 16 (ascii ['%', 'd', ':', '%', 's'])
    [.word 7, .str 22 (ascii ['o', 'k'])] _ (by decide) (by decide)
    (by simpa [Arg.Valid] using (by decide)) rfl (.const 0)

/-- `printf("%%%d", -1)` puts three characters and returns 1. -/
theorem vprintf_counts_percent :
    Returns (rodata 16 (ascii ['%', '%', '%', 'd'])) true 16
        (slots [.word 0xffffffff] (.const 0)) 1 (ascii ['%', '-', '1']) ∧
      (1 : ℤ) ≠ (ascii ['%', '-', '1']).length := by
  refine ⟨?_, by decide⟩
  exact @returns_fields _ true 16 (ascii ['%', '%', '%', 'd']) [.word 0xffffffff]
    [.percent, .number [] .d 0xffffffff] (by decide) (by simp [Arg.Valid]) rfl (.const 0)

end Vprintf

end BaizeBoard
