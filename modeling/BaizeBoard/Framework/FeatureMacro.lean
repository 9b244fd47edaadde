import Mathlib.Data.List.Basic
import Mathlib.Data.Int.Notation

/-!
# The macros that define a feature

`feature_definition` of `framework_macros/src/lib.rs` and `register!` of
`framework/init.rs` turn a struct into a registration: a global value, a
function that initialises it, and a pointer to that function in the section
`.rust_init`.  Tokens that the macros only copy or drop have the type `T`.

The tables of Unicode are those of the standard library and of the compiler:
`CharTable` states what the macro relies on.
-/

namespace BaizeBoard.Feature

structure CharTable where
  upper : Char → List Char
  xidStart : Char → Bool
  xidContinue : Char → Bool
  upper_ascii : ∀ c, c.toNat < 128 → upper c = [c.toUpper]
  start_ascii : ∀ c, c.toNat < 128 → xidStart c = c.isAlpha
  continue_ascii : ∀ c, c.toNat < 128 → xidContinue c = (c.isAlphanum || c = '_')
  continue_of_start : ∀ c, xidStart c = true → xidContinue c = true
  continue_upper : ∀ c, xidContinue c = true → ∀ d ∈ upper c, xidContinue d = true

namespace CharTable

/-- `str::to_uppercase` -/
def toUppercase (C : CharTable) (s : List Char) : List Char := s.flatMap C.upper

def isIdent (C : CharTable) : List Char → Bool
  | [] => false
  | c :: cs => (C.xidStart c || c = '_') && cs.all C.xidContinue

end CharTable

variable {C : CharTable} {T : Type}

structure Ident (C : CharTable) where
  raw : Bool
  name : List Char
  valid : C.isIdent name = true
  deriving DecidableEq

/-- `Ident::to_string`, which keeps the `r#`. -/
def Ident.toString (ident : Ident C) : List Char :=
  if ident.raw then 'r' :: '#' :: ident.name else ident.name

/-- `syn::Ident::new`, which panics if the string is not an identifier. -/
def Ident.new (s : List Char) : Option (Ident C) :=
  if h : C.isIdent s then some { raw := false, name := s, valid := h } else none

/-! ## Struct items -/

inductive Visibility (T : Type) where
  | inherited
  | pub
  | crate
  | restricted (path : T)

structure Generics (T : Type) where
  params : List T
  whereClause : Option T

inductive Fields (T : Type) where
  | named (fields : List T)
  | unnamed (fields : List T)
  | unit

structure ItemStruct (C : CharTable) (T : Type) where
  attrs : List T
  vis : Visibility T
  ident : Ident C
  generics : Generics T
  fields : Fields T

def ItemStruct.bare (ident : Ident C) : ItemStruct C T :=
  { attrs := [], vis := .inherited, ident, generics := { params := [], whereClause := none },
    fields := .unit }

/-! ## What the macros expand to -/

/-- The call is written with method syntax.  No feature type is assumed to have an inherent
method `init`, which would be called in place of that of the trait, and every `init` is
assumed to return. -/
inductive Stmt (C : CharTable) where
  | println (text : List Char)
  /-- `#variable_ident.init();` -/
  | init (variableIdent : Ident C)

inductive Item (C : CharTable) (T : Type) where
  | struct (item : ItemStruct C T)
  /-- `static #name: #type = #type{};` -/
  | global (name type : Ident C)
  | fn (name : Ident C) (body : List (Stmt C))
  /-- `#[link_section = ".rust_init"] #[no_mangle] static #name: fn() = #func;` -/
  | pointer (name func : Ident C)

theorem isIdent_underscore {s : List Char} (h : ∀ c ∈ s, C.xidContinue c = true) :
    C.isIdent ('_' :: s) = true := by
  simpa [CharTable.isIdent] using h

def asciiWord (s : List Char) : Bool :=
  s.all fun c ↦ c.toNat < 128 && (c.isAlphanum || c = '_')

theorem continue_of_ascii {s : List Char} (h : asciiWord s = true) :
    ∀ c ∈ s, C.xidContinue c = true := by
  intro c hc
  have hword := List.all_eq_true.mp h c hc
  rw [Bool.and_eq_true, decide_eq_true_eq] at hword
  rw [C.continue_ascii c hword.1]
  exact hword.2

def Ident.literal (s : List Char) (h : asciiWord s = true) : Ident C :=
  { raw := false, name := '_' :: s, valid := isIdent_underscore (continue_of_ascii h) }

def initFeature_ : Ident C :=
  .literal ['i', 'n', 'i', 't', '_', 'f', 'e', 'a', 't', 'u', 'r', 'e', '_'] rfl

def initFeature : Ident C :=
  .literal ['i', 'n', 'i', 't', '_', 'f', 'e', 'a', 't', 'u', 'r', 'e'] rfl

def v : Ident C := .literal ['V'] rfl

/-- The attribute macro; `none` is a panic, which rejects the item. -/
def featureDefinition (input : ItemStruct C T) : Option (List (Item C T)) := do
  let structName := input.ident
  let structNameStr := structName.toString
  let variableIdent ← Ident.new ("_GLOBAL_".toList ++ C.toUppercase structNameStr)
  let funcIdent ← Ident.new ("_INIT_".toList ++ C.toUppercase structNameStr)
  return [
    .struct (.bare structName),
    .global variableIdent structName,
    .fn initFeature_ [
      .println ("tm: init feature for struct ".toList ++ structNameStr ++ ['!']),
      .init variableIdent],
    .pointer funcIdent initFeature_]

/-- `register!($feat, $rb_name)`; the struct stays where it is. -/
def register (feat rbName : Ident C) : List (Item C T) :=
  [ .global v feat,
    .fn initFeature [.println ("init feature ".toList ++ feat.toString ++ ['!']), .init v],
    .pointer rbName initFeature]

/-! ## Which items are accepted -/

theorem continue_toUppercase {s : List Char} (h : ∀ c ∈ s, C.xidContinue c = true) :
    ∀ d ∈ C.toUppercase s, C.xidContinue d = true := by
  intro d hd
  obtain ⟨c, hc, hdc⟩ := List.mem_flatMap.mp hd
  exact C.continue_upper c (h c hc) d hdc

theorem Ident.continue_name (ident : Ident C) : ∀ c ∈ ident.name, C.xidContinue c = true := by
  have hvalid := ident.valid
  cases hname : ident.name with
  | nil => simp
  | cons c cs =>
      rw [hname, CharTable.isIdent, Bool.and_eq_true, List.all_eq_true] at hvalid
      intro d hd
      rcases List.mem_cons.mp hd with rfl | hd
      · rcases Bool.or_eq_true_iff.mp hvalid.1 with hstart | hunderscore
        · exact C.continue_of_start _ hstart
        · rw [of_decide_eq_true hunderscore, C.continue_ascii _ (by decide)]
          rfl
      · exact hvalid.2 d hd

theorem hash_mem_toUppercase {s : List Char} (h : '#' ∈ s) : '#' ∈ C.toUppercase s := by
  refine List.mem_flatMap.mpr ⟨'#', h, ?_⟩
  rw [C.upper_ascii '#' (by decide)]
  decide

theorem isIdent_of_hash_mem {s : List Char} (h : '#' ∈ s) : C.isIdent ('_' :: s) = false := by
  have hhash : C.xidContinue '#' = false := by
    rw [C.continue_ascii '#' (by decide)]
    rfl
  rw [CharTable.isIdent, Bool.and_eq_false_iff]
  exact .inr (List.all_eq_false.mpr ⟨'#', h, by simp [hhash]⟩)

theorem Ident.new_of_isIdent {s : List Char} (h : C.isIdent s = true) :
    Ident.new s = some ({ raw := false, name := s, valid := h } : Ident C) := dif_pos h

/-- A generated name is an identifier exactly when the struct's name is not raw. -/
theorem new_generated (pre : List Char) (hpre : asciiWord pre = true) (ident : Ident C) :
    C.isIdent ('_' :: (pre ++ C.toUppercase ident.toString)) = !ident.raw := by
  cases hraw : ident.raw with
  | true =>
      apply isIdent_of_hash_mem
      apply List.mem_append_right
      apply hash_mem_toUppercase
      simp [Ident.toString, hraw]
  | false =>
      apply isIdent_underscore
      intro c hc
      rcases List.mem_append.mp hc with hc | hc
      · exact continue_of_ascii hpre c hc
      · refine continue_toUppercase ident.continue_name c ?_
        simpa [Ident.toString, hraw] using hc

/-- The name that `feature_definition` makes of a prefix and a struct's name. -/
def generated (pre : List Char) (hpre : asciiWord pre = true) (ident : Ident C)
    (hraw : ident.raw = false) : Ident C :=
  { raw := false
    name := '_' :: (pre ++ C.toUppercase ident.toString)
    valid := by rw [new_generated pre hpre, hraw]; rfl }

def variableIdent (ident : Ident C) (hraw : ident.raw = false) : Ident C :=
  generated ['G', 'L', 'O', 'B', 'A', 'L', '_'] rfl ident hraw

def funcIdent (ident : Ident C) (hraw : ident.raw = false) : Ident C :=
  generated ['I', 'N', 'I', 'T', '_'] rfl ident hraw

def expansion (ident : Ident C) (hraw : ident.raw = false) : List (Item C T) :=
  [ .struct (.bare ident),
    .global (variableIdent ident hraw) ident,
    .fn initFeature_ [
      .println ("tm: init feature for struct ".toList ++ ident.toString ++ ['!']),
      .init (variableIdent ident hraw)],
    .pointer (funcIdent ident hraw) initFeature_]

theorem featureDefinition_of_not_raw (input : ItemStruct C T) (hraw : input.ident.raw = false) :
    featureDefinition input = some (expansion input.ident hraw) := by
  have hvariable : Ident.new ("_GLOBAL_".toList ++ C.toUppercase input.ident.toString) =
      some (variableIdent input.ident hraw) := Ident.new_of_isIdent _
  have hfunc : Ident.new ("_INIT_".toList ++ C.toUppercase input.ident.toString) =
      some (funcIdent input.ident hraw) := Ident.new_of_isIdent _
  unfold featureDefinition
  simp only [hvariable, hfunc]
  rfl

theorem featureDefinition_of_raw (input : ItemStruct C T) (hraw : input.ident.raw = true) :
    featureDefinition input = none := by
  have hident : C.isIdent ("_GLOBAL_".toList ++ C.toUppercase input.ident.toString) = false := by
    have hnew := new_generated ['G', 'L', 'O', 'B', 'A', 'L', '_'] rfl input.ident
    rw [hraw] at hnew
    exact hnew
  have hvariable : (Ident.new ("_GLOBAL_".toList ++ C.toUppercase input.ident.toString) :
      Option (Ident C)) = none := dif_neg (by rw [hident]; exact Bool.false_ne_true)
  unfold featureDefinition
  simp only [hvariable]
  rfl

theorem not_raw_of_expands {input : ItemStruct C T} {items : List (Item C T)}
    (h : featureDefinition input = some items) :
    ∃ hraw : input.ident.raw = false, items = expansion input.ident hraw := by
  rcases Bool.eq_false_or_eq_true input.ident.raw with hraw | hraw
  · rw [featureDefinition_of_raw input hraw] at h
    cases h
  · rw [featureDefinition_of_not_raw input hraw] at h
    exact ⟨hraw, (Option.some.inj h).symm⟩

/-! ## The struct behind the expansion -/

/-- The macro keeps a struct, or rejects it, exactly when it is a private unit
struct without attributes and generics, or its name is raw. -/
theorem featureDefinition_keeps_iff (input : ItemStruct C T) :
    (∀ items, featureDefinition input = some items → .struct input ∈ items) ↔
      (input.attrs = [] ∧ input.vis = .inherited ∧ input.generics.params = [] ∧
        input.generics.whereClause = none ∧ input.fields = .unit) ∨ input.ident.raw = true := by
  cases hraw : input.ident.raw with
  | true =>
      refine iff_of_true ?_ (.inr rfl)
      intro items hitems
      rw [featureDefinition_of_raw input hraw] at hitems
      cases hitems
  | false =>
      rw [featureDefinition_of_not_raw input hraw]
      obtain ⟨attrs, vis, ident, ⟨params, whereClause⟩, fields⟩ := input
      constructor
      · intro h
        have hmem := h _ rfl
        simp only [expansion, List.mem_cons, List.not_mem_nil, or_false, reduceCtorEq,
          Item.struct.injEq, ItemStruct.bare, ItemStruct.mk.injEq, Generics.mk.injEq] at hmem
        obtain ⟨hattrs, hvis, -, ⟨hparams, hwhere⟩, hfields⟩ := hmem
        exact .inl ⟨hattrs, hvis, hparams, hwhere, hfields⟩
      · rintro (⟨rfl, rfl, rfl, rfl, rfl⟩ | h) items hitems
        · rw [← Option.some.inj hitems]
          exact List.mem_cons_self
        · cases h

/-! ## ASCII -/

theorem toNat_lt_of_isAlphanum {c : Char} (h : c.isAlphanum = true) : c.toNat < 128 := by
  have hbound : ∀ z : Char, z.toNat < 128 → c.val ≤ z.val → c.toNat < 128 :=
    fun z hz hle ↦ Nat.lt_of_le_of_lt (UInt32.le_iff_toNat_le.mp hle) hz
  rcases Bool.or_eq_true_iff.mp h with halpha | hdigit
  · rcases Bool.or_eq_true_iff.mp halpha with hupper | hlower
    · exact hbound 'Z' (by decide) (of_decide_eq_true hupper).2
    · exact hbound 'z' (by decide) (of_decide_eq_true (Bool.and_eq_true_iff.mp hlower).2)
  · exact hbound '9' (by decide) (of_decide_eq_true (Bool.and_eq_true_iff.mp hdigit).2)

theorem toUpper_ascii {c : Char} (h : (c.isAlphanum || c = '_') = true) :
    (c.toUpper.isAlphanum || c.toUpper = '_') = true := by
  have hlt : c.toNat < 128 := by
    rcases Bool.or_eq_true_iff.mp h with halphanum | hunderscore
    · exact toNat_lt_of_isAlphanum halphanum
    · rw [of_decide_eq_true hunderscore]
      decide
  have hall : ∀ n < 128, ((Char.ofNat n).isAlphanum || Char.ofNat n = '_') = true →
      ((Char.ofNat n).toUpper.isAlphanum || (Char.ofNat n).toUpper = '_') = true := by decide
  have hc := hall c.toNat hlt
  rw [Char.ofNat_toNat] at hc
  exact hc h

def CharTable.ascii : CharTable where
  upper c := [c.toUpper]
  xidStart := Char.isAlpha
  xidContinue c := c.isAlphanum || c = '_'
  upper_ascii _ _ := rfl
  start_ascii _ _ := rfl
  continue_ascii _ _ := rfl
  continue_of_start c h := by simp [Char.isAlphanum, h]
  continue_upper c h d hd := by
    rw [List.mem_singleton.mp hd]
    exact toUpper_ascii h

/-- `#[feature_definition] pub struct Feat(u8);` becomes `struct Feat;`. -/
theorem featureDefinition_drops_field :
    let input : ItemStruct .ascii String :=
      { attrs := [], vis := .pub,
        ident := { raw := false, name := ['F', 'e', 'a', 't'], valid := by decide },
        generics := { params := [], whereClause := none }, fields := .unnamed ["u8"] }
    ∃ items, featureDefinition input = some items ∧ .struct input ∉ items ∧
      .struct (.bare input.ident) ∈ items := by
  intro input
  refine ⟨_, featureDefinition_of_not_raw input rfl, ?_, List.mem_cons_self⟩
  simp [expansion, input, ItemStruct.bare]

end BaizeBoard.Feature
