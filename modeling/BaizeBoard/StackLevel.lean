import Mathlib.Data.List.FinRange
import Mathlib.Data.List.Induction
import Mathlib.Order.Fin.Basic
import Mathlib.Order.MinMax
import Mathlib.Logic.Function.Basic

/-!
# The water level of the thread's stack

`_tx_thread_create` fills `STACK` with `0xEF`, and `thread_entry` looks for the
lowest byte that differs.  The scan sees the present memory, not the writes
that led to it: it reports the lowest index whose last write is not `0xEF`.
-/

namespace BaizeBoard.StackLevel

def stackSize : ℕ := 2048

def stackMagic : UInt8 := 0xef

abbrev Index : Type := Fin stackSize

abbrev Stack : Type := Index → UInt8

/-- The rounds of `for index in 0..STACK_SIZE` that are left. -/
def scanFrom (stack : Stack) : List Index → Option (Index × UInt8)
  | [] => none
  | index :: rest =>
      let value := stack index
      if value ≠ stackMagic then some (index, value) else scanFrom stack rest

/-- What the loop prints: the level and the value there. -/
def scan (stack : Stack) : Option (Index × UInt8) := scanFrom stack (List.finRange stackSize)

/-! ## Runs of the thread -/

inductive Step where
  | write (index : Index) (value : UInt8)
  | scan

structure State where
  stack : Stack
  reports : List (Option (Index × UInt8))

def start : State := { stack := fun _ ↦ stackMagic, reports := [] }

def step (s : State) : Step → State
  | .write index value => { s with stack := Function.update s.stack index value }
  | .scan => { s with reports := s.reports ++ [scan s.stack] }

def run (steps : List Step) : State := steps.foldl step start

/-! ## The history of a run -/

def Step.index? : Step → Option Index
  | .write index _ => some index
  | .scan => none

def written (steps : List Step) : List Index := steps.filterMap Step.index?

/-- The high-water mark. -/
def lowestWritten (steps : List Step) : Option Index := (written steps).min?

def lastWrite (i : Index) (steps : List Step) : Option UInt8 :=
  steps.foldl (fun last s ↦
    match s with
    | .write index value => if index = i then some value else last
    | .scan => last) none

def historiesFrom (before : List Step) : List Step → List (List Step)
  | [] => []
  | .write index value :: rest => historiesFrom (before ++ [.write index value]) rest
  | .scan :: rest => before :: historiesFrom (before ++ [.scan]) rest

/-- The part of a run before each of its scans. -/
def historiesAtScans (steps : List Step) : List (List Step) := historiesFrom [] steps

theorem run_append (steps : List Step) (s : Step) : run (steps ++ [s]) = step (run steps) s := by
  rw [run, List.foldl_append]
  rfl

theorem written_append (steps : List Step) (s : Step) :
    written (steps ++ [s]) = written steps ++ s.index?.toList := by
  cases s <;> simp [written, Step.index?]

theorem lastWrite_append (i : Index) (steps : List Step) (s : Step) :
    lastWrite i (steps ++ [s]) =
      match s with
      | .write index value => if index = i then some value else lastWrite i steps
      | .scan => lastWrite i steps := by
  rw [lastWrite, List.foldl_append]
  cases s <;> rfl

theorem lastWrite_eq_none_iff (i : Index) (steps : List Step) :
    lastWrite i steps = none ↔ i ∉ written steps := by
  induction steps using List.reverseRecOn with
  | nil => simp [lastWrite, written]
  | append_singleton steps s ih =>
      rw [lastWrite_append, written_append, List.mem_append, not_or, ← ih]
      cases s with
      | write index value =>
          by_cases h : index = i
          · simp [h, Step.index?]
          · simp [h, Ne.symm h, Step.index?]
      | scan => simp [Step.index?]

theorem stack_run (steps : List Step) (i : Index) :
    (run steps).stack i = (lastWrite i steps).getD stackMagic := by
  induction steps using List.reverseRecOn with
  | nil => rfl
  | append_singleton steps s ih =>
      rw [run_append, lastWrite_append]
      cases s with
      | write index value =>
          by_cases h : index = i
          · subst h
            simp [step]
          · simp only [if_neg h, ← ih]
            exact Function.update_of_ne (Ne.symm h) _ _
      | scan => exact ih

/-! ## What a scan reports -/

theorem scanFrom_eq_some_iff (stack : Stack) {l : List Index} (hl : l.Pairwise (· < ·))
    (i : Index) (v : UInt8) :
    scanFrom stack l = some (i, v) ↔
      i ∈ l ∧ stack i = v ∧ v ≠ stackMagic ∧ ∀ j ∈ l, j < i → stack j = stackMagic := by
  induction l with
  | nil => simp [scanFrom]
  | cons index rest ih =>
      obtain ⟨hlt, hrest⟩ := List.pairwise_cons.mp hl
      unfold scanFrom
      by_cases hmagic : stack index = stackMagic
      · simp only [hmagic, ne_eq, not_true_eq_false, if_false, ih hrest, List.mem_cons,
          forall_eq_or_imp]
        constructor
        · rintro ⟨hi, hv, hne, hbelow⟩
          exact ⟨.inr hi, hv, hne, fun _ ↦ trivial, hbelow⟩
        · rintro ⟨rfl | hi, hv, hne, -, hbelow⟩
          · exact absurd (hv.symm.trans hmagic) hne
          · exact ⟨hi, hv, hne, hbelow⟩
      · simp only [ne_eq, hmagic, not_false_eq_true, if_true, Option.some.injEq, Prod.mk.injEq,
          List.mem_cons, forall_eq_or_imp]
        constructor
        · rintro ⟨rfl, rfl⟩
          refine ⟨.inl rfl, rfl, hmagic, fun h ↦ absurd h (lt_irrefl _), fun j hj hji ↦ ?_⟩
          exact absurd (hlt j hj) (lt_asymm hji)
        · rintro ⟨rfl | hi, hv, hne, hbelow, -⟩
          · exact ⟨rfl, hv⟩
          · exact (hbelow (hlt i hi)).elim

theorem scan_eq_some_iff (stack : Stack) (i : Index) (v : UInt8) :
    scan stack = some (i, v) ↔
      stack i = v ∧ v ≠ stackMagic ∧ ∀ j < i, stack j = stackMagic := by
  rw [scan, scanFrom_eq_some_iff stack (List.pairwise_lt_finRange stackSize)]
  simp

theorem scanFrom_eq_none_iff (stack : Stack) (l : List Index) :
    scanFrom stack l = none ↔ ∀ i ∈ l, stack i = stackMagic := by
  induction l with
  | nil => simp [scanFrom]
  | cons index rest ih =>
      unfold scanFrom
      by_cases hmagic : stack index = stackMagic
      · simpa [hmagic] using ih
      · simp [hmagic]

theorem scan_eq_none_iff (stack : Stack) :
    scan stack = none ↔ ∀ i, stack i = stackMagic := by
  rw [scan, scanFrom_eq_none_iff]
  simp

theorem stack_run_eq_magic_iff (steps : List Step) (i : Index) :
    (run steps).stack i = stackMagic ↔ ∀ u, lastWrite i steps = some u → u = stackMagic := by
  rw [stack_run]
  cases lastWrite i steps <;> simp

theorem scan_run_iff (steps : List Step) (i : Index) (v : UInt8) :
    scan (run steps).stack = some (i, v) ↔
      lastWrite i steps = some v ∧ v ≠ stackMagic ∧
        ∀ j < i, ∀ u, lastWrite j steps = some u → u = stackMagic := by
  rw [scan_eq_some_iff]
  simp only [stack_run_eq_magic_iff]
  rw [stack_run]
  cases lastWrite i steps with
  | none =>
      constructor
      · rintro ⟨rfl, hne, -⟩
        exact absurd rfl hne
      · rintro ⟨h, -⟩
        exact absurd h (by simp)
  | some u => simp

theorem scan_run_eq_none_iff (steps : List Step) :
    scan (run steps).stack = none ↔ ∀ i u, lastWrite i steps = some u → u = stackMagic := by
  rw [scan_eq_none_iff]
  refine forall_congr' fun i ↦ ?_
  exact stack_run_eq_magic_iff steps i

theorem lowestWritten_eq_some_iff (steps : List Step) (i : Index) :
    lowestWritten steps = some i ↔ i ∈ written steps ∧ ∀ j ∈ written steps, i ≤ j := by
  have : Std.LawfulOrderMin Index := .of_le_min_iff (fun _ _ _ ↦ le_min_iff) min_choice
  exact List.min?_eq_some_iff

theorem lowestWritten_eq_none_iff (steps : List Step) :
    lowestWritten steps = none ↔ written steps = [] :=
  List.min?_eq_none_iff

/-! ## Against the high-water mark -/

def level (report : Option (Index × UInt8)) : Option Index := report.map Prod.fst

def MarkStands (steps : List Step) : Prop :=
  ∀ i, lowestWritten steps = some i → lastWrite i steps ≠ some stackMagic

theorem level_scan_of_markStands {steps : List Step} (h : MarkStands steps) :
    level (scan (run steps).stack) = lowestWritten steps := by
  cases hmark : lowestWritten steps with
  | none =>
      rw [lowestWritten_eq_none_iff] at hmark
      have hnone : scan (run steps).stack = none := by
        rw [scan_run_eq_none_iff]
        intro i u hu
        have hi : i ∉ written steps := by simp [hmark]
        rw [← lastWrite_eq_none_iff] at hi
        exact absurd (hi.symm.trans hu) (by simp)
      rw [hnone]
      rfl
  | some i =>
      have hne := h i hmark
      rw [lowestWritten_eq_some_iff] at hmark
      obtain ⟨hi, hle⟩ := hmark
      cases hlast : lastWrite i steps with
      | none => exact absurd hi ((lastWrite_eq_none_iff i steps).mp hlast)
      | some v =>
          have hscan : scan (run steps).stack = some (i, v) := by
            rw [scan_run_iff]
            refine ⟨hlast, fun hv ↦ hne (by rw [hlast, hv]), fun j hj u hu ↦ ?_⟩
            have hmem : j ∈ written steps := by
              by_contra hnot
              rw [← lastWrite_eq_none_iff] at hnot
              exact absurd (hnot.symm.trans hu) (by simp)
            exact absurd (hle j hmem) (not_le.mpr hj)
          rw [hscan]
          rfl

theorem level_scan_eq_iff (steps : List Step) :
    level (scan (run steps).stack) = lowestWritten steps ↔ MarkStands steps := by
  constructor
  · intro hlevel i hmark hmagic
    rw [hmark] at hlevel
    obtain ⟨⟨j, v⟩, hscan, rfl⟩ := Option.map_eq_some_iff.mp hlevel
    obtain ⟨hlast, hne, -⟩ := (scan_run_iff steps j v).mp hscan
    exact hne (Option.some.inj (hlast.symm.trans hmagic))
  · exact level_scan_of_markStands

/-! ## The scans of a run -/

theorem historiesFrom_append (before steps : List Step) (s : Step) :
    historiesFrom before (steps ++ [s]) =
      historiesFrom before steps ++ historiesFrom (before ++ steps) [s] := by
  induction steps generalizing before with
  | nil => simp [historiesFrom]
  | cons t rest ih =>
      rw [List.append_cons before]
      cases t with
      | write index value => exact ih _
      | scan => exact congrArg (before :: ·) (ih _)

theorem reports_run (steps : List Step) :
    (run steps).reports = (historiesAtScans steps).map fun before ↦ scan (run before).stack := by
  induction steps using List.reverseRecOn with
  | nil => rfl
  | append_singleton steps s ih =>
      rw [run_append, historiesAtScans, historiesFrom_append, List.map_append,
        List.nil_append]
      cases s with
      | write index value => simpa [step, historiesFrom, historiesAtScans] using ih
      | scan => simpa [step, historiesFrom, historiesAtScans] using ih

theorem isPrefix_of_mem_historiesFrom {before steps history : List Step}
    (h : history ∈ historiesFrom before steps) :
    before <+: history ∧ history <+: before ++ steps := by
  induction steps generalizing before with
  | nil => simp [historiesFrom] at h
  | cons t rest ih =>
      have hrest : ∀ h' : history ∈ historiesFrom (before ++ [t]) rest,
          before <+: history ∧ history <+: before ++ t :: rest := by
        intro h'
        obtain ⟨hafter, hto⟩ := ih h'
        exact ⟨(List.prefix_append before [t]).trans hafter, by simpa using hto⟩
      cases t with
      | write index value => exact hrest h
      | scan =>
          obtain rfl | h' := List.mem_cons.mp h
          · exact ⟨List.prefix_rfl, List.prefix_append _ _⟩
          · exact hrest h'

theorem historiesFrom_pairwise (before steps : List Step) :
    (historiesFrom before steps).Pairwise (· <+: ·) := by
  induction steps generalizing before with
  | nil => exact List.Pairwise.nil
  | cons t rest ih =>
      cases t with
      | write index value => exact ih _
      | scan =>
          apply List.Pairwise.cons
          · intro history h
            exact (List.prefix_append before [.scan]).trans (isPrefix_of_mem_historiesFrom h).1
          · exact ih _

/-! ## Marks only fall -/

theorem lowestWritten_of_prefix {earlier later : List Step} (h : earlier <+: later) {i : Index}
    (hi : lowestWritten earlier = some i) : ∃ j, lowestWritten later = some j ∧ j ≤ i := by
  have hmem : i ∈ written later :=
    (h.filterMap Step.index?).subset ((lowestWritten_eq_some_iff earlier i).mp hi).1
  cases hlater : lowestWritten later with
  | none =>
      rw [lowestWritten_eq_none_iff] at hlater
      simp [hlater] at hmem
  | some j =>
      rw [lowestWritten_eq_some_iff] at hlater
      exact ⟨j, rfl, hlater.2 i hmem⟩

/-- A report is followed by a report of the same level or a lower one. -/
def NotAbove (earlier later : Option (Index × UInt8)) : Prop :=
  ∀ i, level earlier = some i → ∃ j, level later = some j ∧ j ≤ i

theorem reports_pairwise {steps : List Step}
    (h : ∀ before ∈ historiesAtScans steps, MarkStands before) :
    (run steps).reports.Pairwise NotAbove := by
  rw [reports_run, List.pairwise_map]
  apply (historiesFrom_pairwise [] steps).imp_of_mem
  intro earlier later hearlier hlater hpre i hi
  rw [level_scan_of_markStands (h earlier hearlier)] at hi
  rw [level_scan_of_markStands (h later hlater)]
  exact lowestWritten_of_prefix hpre hi

theorem write_mem_of_lastWrite {i : Index} {v : UInt8} {steps : List Step}
    (h : lastWrite i steps = some v) : Step.write i v ∈ steps := by
  induction steps using List.reverseRecOn with
  | nil => simp [lastWrite] at h
  | append_singleton steps s ih =>
      rw [lastWrite_append] at h
      cases s with
      | write index value =>
          by_cases hindex : index = i
          · simp only [if_pos hindex, Option.some.injEq] at h
            simp [hindex, h]
          · simp only [if_neg hindex] at h
            exact List.mem_append_left _ (ih h)
      | scan => exact List.mem_append_left _ (ih h)

theorem markStands_of_no_magic {steps : List Step} (h : ∀ i, Step.write i stackMagic ∉ steps) :
    ∀ before ∈ historiesAtScans steps, MarkStands before := by
  intro before hbefore i _ hmagic
  have hpre := (isPrefix_of_mem_historiesFrom hbefore).2
  exact h i (hpre.subset (write_mem_of_lastWrite hmagic))

theorem water_level (steps : List Step) :
    (run steps).reports =
        (historiesAtScans steps).map (fun before ↦ scan (run before).stack) ∧
      (∀ before ∈ historiesAtScans steps,
        (∀ i v, scan (run before).stack = some (i, v) ↔
          lastWrite i before = some v ∧ v ≠ stackMagic ∧
            ∀ j < i, ∀ u, lastWrite j before = some u → u = stackMagic) ∧
        (scan (run before).stack = none ↔
          ∀ i u, lastWrite i before = some u → u = stackMagic) ∧
        (level (scan (run before).stack) = lowestWritten before ↔
          ∀ i, lowestWritten before = some i → lastWrite i before ≠ some stackMagic)) ∧
      ((∀ before ∈ historiesAtScans steps, MarkStands before) →
        (run steps).reports.Pairwise NotAbove) ∧
      ((∀ i, Step.write i stackMagic ∉ steps) →
        ∀ before ∈ historiesAtScans steps, MarkStands before) := by
  refine ⟨reports_run steps, ?_, reports_pairwise, markStands_of_no_magic⟩
  intro before _
  exact ⟨scan_run_iff before, scan_run_eq_none_iff before, level_scan_eq_iff before⟩

def low : Index := ⟨50, by decide⟩

def high : Index := ⟨100, by decide⟩

/-- The byte at `low` is written and filled again, so the second scan reports `high`. -/
def refilled : List Step :=
  [.write low 7, .scan, .write high 7, .write low stackMagic, .scan]

theorem water_level_rises :
    (run refilled).reports.map level = [some low, some high] ∧
      (historiesAtScans refilled).map lowestWritten = [some low, some low] := by
  constructor
  · have hfirst : scan (run [.write low 7]).stack = some (low, 7) := by
      rw [scan_run_iff]
      refine ⟨rfl, by decide, fun j hj u hu ↦ ?_⟩
      simp [lastWrite, hj.ne'] at hu
    have hsecond : scan (run [.write low 7, .scan, .write high 7, .write low stackMagic]).stack =
        some (high, 7) := by
      rw [scan_run_iff]
      refine ⟨rfl, by decide, fun j hj u hu ↦ ?_⟩
      by_cases h : low = j
      · subst h
        have hlast : lastWrite low [.write low 7, .scan, .write high 7, .write low stackMagic] =
            some stackMagic := rfl
        exact Option.some.inj (hu.symm.trans hlast)
      · simp [lastWrite, h, hj.ne'] at hu
    rw [reports_run]
    simp [refilled, historiesAtScans, historiesFrom, hfirst, hsecond, level]
  · decide

end BaizeBoard.StackLevel
