import BaizeBoard.Framework.FeatureMacro

/-!
# The names that features register under

Items are unique in their module, for types and values separately; symbols that
are not mangled are unique in the whole program.  Two features keep out of each
other's way exactly when they are in different modules and their names differ
in upper case: `_init_feature_` does not depend on the struct, and the link
symbol depends neither on the case of its name nor on the module.
-/

namespace BaizeBoard.Feature

variable {C : CharTable} {T : Type}

abbrev Module : Type := List (List Char)

inductive Namespace where
  | types
  | values
  deriving DecidableEq

/-- The names an item defines in its module.  A unit or tuple struct is also
its own constructor. -/
def Item.defines : Item C T → List (Namespace × List Char)
  | .struct item =>
      match item.fields with
      | .named _ => [(.types, item.ident.name)]
      | _ => [(.types, item.ident.name), (.values, item.ident.name)]
  | .global name _ => [(.values, name.name)]
  | .fn name _ => [(.values, name.name)]
  | .pointer name _ => [(.values, name.name)]

def Item.linkSymbol : Item C T → Option (List Char)
  | .pointer name _ => some name.name
  | _ => none

structure NoClash (m₁ : Module) (items₁ : List (Item C T)) (m₂ : Module)
    (items₂ : List (Item C T)) : Prop where
  items : m₁ = m₂ → ∀ d ∈ items₁.flatMap Item.defines, d ∉ items₂.flatMap Item.defines
  symbols : ∀ s ∈ items₁.filterMap Item.linkSymbol, s ∉ items₂.filterMap Item.linkSymbol

theorem mem_defines_expansion (ident : Ident C) (hraw : ident.raw = false) :
    (.values, (initFeature_ : Ident C).name) ∈
      (expansion ident hraw : List (Item C T)).flatMap Item.defines := by
  simp [expansion, Item.defines]

theorem linkSymbol_expansion (ident : Ident C) (hraw : ident.raw = false) :
    (expansion ident hraw : List (Item C T)).filterMap Item.linkSymbol =
      ["_INIT_".toList ++ C.toUppercase ident.name] := by
  have hname : (funcIdent ident hraw).name = "_INIT_".toList ++ C.toUppercase ident.name := by
    simp [funcIdent, generated, Ident.toString, hraw]
  rw [← hname]
  rfl

theorem noClash_expansion_iff (m₁ m₂ : Module) {ident₁ ident₂ : Ident C}
    (hraw₁ : ident₁.raw = false) (hraw₂ : ident₂.raw = false) :
    NoClash (T := T) m₁ (expansion ident₁ hraw₁) m₂ (expansion ident₂ hraw₂) ↔
      m₁ ≠ m₂ ∧ C.toUppercase ident₁.name ≠ C.toUppercase ident₂.name := by
  constructor
  · rintro ⟨hitems, hsymbols⟩
    rw [linkSymbol_expansion, linkSymbol_expansion] at hsymbols
    constructor
    · intro hm
      exact hitems hm _ (mem_defines_expansion ident₁ hraw₁) (mem_defines_expansion ident₂ hraw₂)
    · intro hupper
      exact hsymbols _ List.mem_cons_self (by simp [hupper])
  · rintro ⟨hm, hupper⟩
    refine ⟨fun heq ↦ absurd heq hm, ?_⟩
    rw [linkSymbol_expansion, linkSymbol_expansion]
    intro s hs hs'
    rw [List.mem_singleton] at hs hs'
    exact hupper (List.append_cancel_left (hs.symm.trans hs'))

/-- The expansions of two features have no name in common where names have to
be unique, exactly when their modules and their names in upper case differ. -/
theorem feature_names_iff (m₁ m₂ : Module) (input₁ input₂ : ItemStruct C T)
    (items₁ items₂ : List (Item C T)) (h₁ : featureDefinition input₁ = some items₁)
    (h₂ : featureDefinition input₂ = some items₂) :
    NoClash m₁ items₁ m₂ items₂ ↔
      m₁ ≠ m₂ ∧ C.toUppercase input₁.ident.name ≠ C.toUppercase input₂.ident.name := by
  obtain ⟨hraw₁, rfl⟩ := not_raw_of_expands h₁
  obtain ⟨hraw₂, rfl⟩ := not_raw_of_expands h₂
  exact noClash_expansion_iff m₁ m₂ hraw₁ hraw₂

def asciiIdent (name : List Char) (h : CharTable.ascii.isIdent name = true) : Ident .ascii :=
  { raw := false, name, valid := h }

def feat1 : Ident .ascii := asciiIdent ['F', 'e', 'a', 't', '1'] (by decide)

def feat2 : Ident .ascii := asciiIdent ['F', 'e', 'a', 't', '2'] (by decide)

/-- `Feat1` of `features::feat_1` and `Feat2` of `features::feat_2`. -/
theorem feature_names_iff_example :
    NoClash (T := String) ["feat_1".toList] (expansion feat1 rfl) ["feat_2".toList]
        (expansion feat2 rfl) ↔
      ["feat_1".toList] ≠ ["feat_2".toList] ∧
        CharTable.ascii.toUppercase feat1.name ≠ CharTable.ascii.toUppercase feat2.name :=
  feature_names_iff _ _ (.bare feat1) (.bare feat2) _ _
    (featureDefinition_of_not_raw (.bare feat1) rfl)
    (featureDefinition_of_not_raw (.bare feat2) rfl)

/-- `Feat1` and `Feat2` clash in one module, `Feat1` and `FEAT1` in different
ones as well. -/
theorem feature_names_clash :
    let feat1' : Ident .ascii := asciiIdent ['F', 'E', 'A', 'T', '1'] (by decide)
    ∃ items₁ items₂ items₃ : List (Item .ascii String),
      featureDefinition (.bare feat1) = some items₁ ∧
      featureDefinition (.bare feat2) = some items₂ ∧
      featureDefinition (.bare feat1') = some items₃ ∧ feat1 ≠ feat2 ∧ feat1 ≠ feat1' ∧
      ¬ NoClash ["m".toList] items₁ ["m".toList] items₂ ∧
      ¬ NoClash ["m".toList] items₁ ["n".toList] items₃ := by
  intro feat1'
  refine ⟨_, _, _, featureDefinition_of_not_raw _ rfl, featureDefinition_of_not_raw _ rfl,
    featureDefinition_of_not_raw _ rfl, by decide, by decide, ?_, ?_⟩
  · intro h
    exact ((noClash_expansion_iff _ _ rfl rfl).mp h).1 rfl
  · intro h
    exact ((noClash_expansion_iff _ _ rfl rfl).mp h).2 (by decide)

end BaizeBoard.Feature
