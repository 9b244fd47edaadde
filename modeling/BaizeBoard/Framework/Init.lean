import BaizeBoard.Framework.FeatureNames
import BaizeBoard.Libc.Memory
import BaizeBoard.Library.LittleEndian

/-!
# `init_framework` of `framework/init.rs`

A registration leaves a pointer to its function in the section `.rust_init`.
The linker lays the pointers of all features out between `__rust_init_start`
and `__rust_init_end`, and `init_framework` calls them one after the other.
-/

namespace BaizeBoard.Feature

variable {C : CharTable} {T : Type}

inductive Registration (C : CharTable) (T : Type) where
  | featureDefinition (input : ItemStruct C T)
  | register (feat rbName : Ident C)

def Registration.expand : Registration C T → Option (List (Item C T))
  | .featureDefinition input => Feature.featureDefinition input
  | .register feat rbName => some (Feature.register feat rbName)

/-- A feature that has been compiled, with the items its registration leaves in
the module. -/
structure Registered (C : CharTable) (T : Type) where
  module : Module
  registration : Registration C T
  items : List (Item C T)
  expands : registration.expand = some items

/-- What a run does that can be seen: a line it prints, or a call of
`Feature::init` for a type. -/
inductive Event (C : CharTable) where
  | println (text : List Char)
  | init (module : Module) (type : Ident C)
  deriving DecidableEq

/-! ## Calling the function of a registration -/

def Item.globalType? (variableIdent : Ident C) : Item C T → Option (Ident C)
  | .global name type => if name = variableIdent then some type else none
  | _ => none

def Item.body? (func : Ident C) : Item C T → Option (List (Stmt C))
  | .fn name body => if name = func then some body else none
  | _ => none

def Item.target? : Item C T → Option (Ident C)
  | .pointer _ func => some func
  | _ => none

def Stmt.run (module : Module) (items : List (Item C T)) : Stmt C → Option (Event C)
  | .println text => some (.println text)
  | .init variableIdent =>
      (items.findSome? (Item.globalType? variableIdent)).map (Event.init module)

namespace Registered

def symbol (f : Registered C T) : Option (List Char) := f.items.findSome? Item.linkSymbol

def call (f : Registered C T) : Option (List (Event C)) := do
  let func ← f.items.findSome? Item.target?
  let body ← f.items.findSome? (Item.body? func)
  body.mapM (Stmt.run f.module f.items)

/-- The type whose `Feature::init` the registration is for. -/
def type (f : Registered C T) : Ident C :=
  match f.registration with
  | .featureDefinition input => input.ident
  | .register feat _ => feat

def message (f : Registered C T) : List Char :=
  match f.registration with
  | .featureDefinition input =>
      "tm: init feature for struct ".toList ++ input.ident.toString ++ ['!']
  | .register feat _ => "init feature ".toList ++ feat.toString ++ ['!']

/-- Behind what comes before it, a registration is a global, a function that
initialises it, and a pointer to the function. -/
theorem run_registration (module : Module) (pre : List (Item C T)) (variableIdent type : Ident C)
    (func funcIdent : Ident C) (text : List Char)
    (hglobal : ∀ item ∈ pre, item.globalType? variableIdent = none)
    (hbody : ∀ item ∈ pre, item.body? func = none) (htarget : ∀ item ∈ pre, item.target? = none) :
    let items := pre ++ [.global variableIdent type,
      .fn func [.println text, .init variableIdent], .pointer funcIdent func]
    (do
      let func ← items.findSome? Item.target?
      let body ← items.findSome? (Item.body? func)
      body.mapM (Stmt.run module items)) = some [.println text, .init module type] := by
  intro items
  have htarget' : items.findSome? Item.target? = some func := by
    rw [List.findSome?_append, List.findSome?_eq_none_iff.mpr htarget]
    rfl
  have hbody' : items.findSome? (Item.body? func) = some [.println text, .init variableIdent] := by
    rw [List.findSome?_append, List.findSome?_eq_none_iff.mpr hbody]
    simp [List.findSome?_cons, Item.body?]
  have hglobal' : items.findSome? (Item.globalType? variableIdent) = some type := by
    rw [List.findSome?_append, List.findSome?_eq_none_iff.mpr hglobal]
    simp [Item.globalType?]
  simp only [htarget', hbody', Option.bind_eq_bind, Option.bind_some]
  simp [Stmt.run, hglobal']

/-- Either macro leaves a pointer whose function initialises the feature. -/
theorem call_eq (f : Registered C T) :
    f.call = some [.println f.message, .init f.module f.type] := by
  obtain ⟨module, registration, items, hexpands⟩ := f
  cases registration with
  | featureDefinition input =>
      obtain ⟨hraw, rfl⟩ := not_raw_of_expands hexpands
      refine run_registration module [.struct (.bare input.ident)] _ _ _ _ _ ?_ ?_ ?_
      · simp [Item.globalType?]
      · simp [Item.body?]
      · simp [Item.target?]
  | register feat rbName =>
      obtain rfl : Feature.register feat rbName = items := Option.some.inj hexpands
      exact run_registration module [] _ _ _ _ _ (by simp) (by simp) (by simp)

end Registered

/-! ## The section -/

structure Image (C : CharTable) where
  mem : Mem
  start : BitVec 64
  stop : BitVec 64
  code : BitVec 64 → Option (List (Event C))

def sizeOfInitFn : ℕ := 8

def readWord (mem : Mem) (a : ℕ) : BitVec 64 :=
  BitVec.ofNat 64 (LittleEndian.value ((List.range sizeOfInitFn).map fun j ↦ mem (a + j)))

namespace Image

def count (img : Image C) : ℕ := (img.stop - img.start).toNat / sizeOfInitFn

/-- `core::slice::from_raw_parts(start, count)` -/
def initFns (img : Image C) : List (BitVec 64) :=
  (List.range img.count).map fun i ↦ readWord img.mem (img.start.toNat + sizeOfInitFn * i)

def initFramework (img : Image C) : Option (List (Event C)) := do
  let calls ← img.initFns.mapM img.code
  return .println "init framework!".toList :: calls.flatten

/-- What the linker has done: it placed the pointers of the features in this
order, without gaps, between the two symbols. -/
structure Linked (img : Image C) (order : List (Registered C T))
    (addr : Registered C T → BitVec 64) : Prop where
  stop : img.stop.toNat = img.start.toNat + sizeOfInitFn * order.length
  words : ∀ i f, order[i]? = some f → ∀ j < sizeOfInitFn,
    some (img.mem (img.start.toNat + sizeOfInitFn * i + j)) =
      (LittleEndian.bytes sizeOfInitFn (addr f).toNat)[j]?
  code : ∀ f ∈ order, img.code (addr f) = f.call

variable {img : Image C} {order : List (Registered C T)} {addr : Registered C T → BitVec 64}

theorem Linked.count_eq (h : img.Linked order addr) : img.count = order.length := by
  have hstop := h.stop
  have hle : img.start ≤ img.stop := by
    rw [BitVec.le_def]
    omega
  rw [count, BitVec.toNat_sub_of_le hle, hstop, Nat.add_sub_cancel_left]
  exact Nat.mul_div_cancel_left _ (by decide)

theorem Linked.readWord_eq (h : img.Linked order addr) {i : ℕ} {f : Registered C T}
    (hi : order[i]? = some f) :
    readWord img.mem (img.start.toNat + sizeOfInitFn * i) = addr f := by
  have hbytes : (List.range sizeOfInitFn).map
      (fun j ↦ img.mem (img.start.toNat + sizeOfInitFn * i + j)) =
      LittleEndian.bytes sizeOfInitFn (addr f).toNat := by
    apply List.ext_getElem?
    intro j
    by_cases hj : j < sizeOfInitFn
    · rw [← h.words i f hi j hj]
      simp [hj]
    · rw [List.getElem?_eq_none (by simpa using hj),
        List.getElem?_eq_none (by simpa [LittleEndian.length_bytes] using hj)]
  rw [readWord, hbytes]
  exact LittleEndian.ofNat_value_bytes (addr f)

theorem Linked.initFns_eq (h : img.Linked order addr) : img.initFns = order.map addr := by
  apply List.ext_getElem?
  intro i
  rw [initFns, h.count_eq, List.getElem?_map, List.getElem?_map]
  by_cases hi : i < order.length
  · have hget : order[i]? = some order[i] := List.getElem?_eq_getElem hi
    rw [hget, List.getElem?_range hi, Option.map_some, Option.map_some, h.readWord_eq hget]
  · rw [List.getElem?_eq_none (by simpa using hi), List.getElem?_eq_none (by simpa using hi)]
    rfl

theorem Linked.mapM_code (h : img.Linked order addr) :
    (order.map addr).mapM img.code =
      some (order.map fun f ↦ [.println f.message, .init f.module f.type]) := by
  have hcode := h.code
  clear h
  induction order with
  | nil => rfl
  | cons f order ih =>
      have hf : img.code (addr f) = some [.println f.message, .init f.module f.type] :=
        (hcode f List.mem_cons_self).trans f.call_eq
      have hrest := ih fun g hg ↦ hcode g (List.mem_cons_of_mem _ hg)
      rw [List.map_cons, List.mapM_cons, hf, hrest]
      rfl

theorem Linked.initFramework_eq (h : img.Linked order addr) :
    img.initFramework = some (.println "init framework!".toList ::
      order.flatMap fun f ↦ [.println f.message, .init f.module f.type]) := by
  unfold initFramework
  rw [h.initFns_eq, h.mapM_code, List.flatMap_def]
  rfl

/-- `init_framework` counts the features, reads their pointers and initialises
each of them once, in the order of the linker. -/
theorem init_framework_each_once (img : Image C) (features order : List (Registered C T))
    (addr : Registered C T → BitVec 64) (hsymbols : (features.map Registered.symbol).Nodup)
    (horder : order.Perm features) (hlinked : img.Linked order addr) :
    img.count = features.length ∧ img.initFns = order.map addr ∧
      img.initFramework = some (.println "init framework!".toList ::
        order.flatMap fun f ↦ [.println f.message, .init f.module f.type]) ∧
      order.Nodup ∧ ∀ f, f ∈ order ↔ f ∈ features := by
  refine ⟨?_, hlinked.initFns_eq, hlinked.initFramework_eq, ?_, fun f ↦ horder.mem_iff⟩
  · rw [hlinked.count_eq, horder.length_eq]
  · exact horder.nodup_iff.mpr (List.Nodup.of_map _ hsymbols)

/-- `Feat1` of `features::feat_1`, and `Example` of `features::example`. -/
def registeredFeat1 : Registered .ascii String where
  module := ["feat_1".toList]
  registration := .featureDefinition (.bare feat1)
  items := expansion feat1 rfl
  expands := featureDefinition_of_not_raw (.bare feat1) rfl

def registeredExample : Registered .ascii String where
  module := ["example".toList]
  registration := .register (asciiIdent "Example".toList (by decide))
    (asciiIdent "init_example".toList (by decide))
  items := _
  expands := rfl

def exampleAddr (f : Registered .ascii String) : BitVec 64 :=
  match f.registration with
  | .featureDefinition _ => 0x4000
  | .register _ _ => 0x5000

def exampleImage : Image .ascii where
  mem := rodata 0x100 (LittleEndian.bytes 8 0x5000 ++ LittleEndian.bytes 8 0x4000)
  start := 0x100
  stop := 0x110
  code a :=
    if a = 0x4000 then registeredFeat1.call
    else if a = 0x5000 then registeredExample.call
    else none

theorem linked_example :
    exampleImage.Linked [registeredExample, registeredFeat1] exampleAddr where
  stop := rfl
  words i f hi := by
    match i with
    | 0 =>
        cases hi
        decide
    | 1 =>
        cases hi
        decide
    | i + 2 => simp at hi
  code f hf := by
    simp only [List.mem_cons, List.not_mem_nil, or_false] at hf
    rcases hf with rfl | rfl <;> rfl

theorem init_framework_each_once_example :
    let order := [registeredExample, registeredFeat1]
    let features := [registeredFeat1, registeredExample]
    exampleImage.count = features.length ∧ exampleImage.initFns = order.map exampleAddr ∧
      exampleImage.initFramework = some (.println "init framework!".toList ::
        order.flatMap fun f ↦ [.println f.message, .init f.module f.type]) ∧
      order.Nodup ∧ ∀ f, f ∈ order ↔ f ∈ features :=
  init_framework_each_once exampleImage _ _ exampleAddr (by decide) (List.Perm.swap _ _ [])
    linked_example

end Image

end BaizeBoard.Feature
