import SkyEngine.Basic
import SkyEngine.Lib.Forest
import Mathlib.Data.List.AList

/-!
# Meta — Types

The data of the reflection system (`Base/Meta.hpp`): what the
registration macros record at static-initialization time, and the metatype
objects `MetaSystemExample::Initialize` works on.

C++ types are named by the elements of a type `κ`. A registration macro
creates one static metatype object for its type; `Initialize` later makes
one copy of it. The two are told apart by `MetaPtr`, the model of
`LPMetaType` / `LPMetaClass`.
-/

namespace SkyEngine.Meta

/-- `MetaClass::kMaxClasses`, the length of `m_classes`. -/
def kMaxClasses : Nat := 0xA00

/-- A pointer to a metatype object: the static object of a registered
type, or the copy `Initialize` made of it. -/
inductive MetaPtr (κ : Type) where
  | original (type : κ)
  | copy (type : κ)
  deriving DecidableEq, Repr

/-- The C++ type a metatype object stands for (its template argument). -/
def MetaPtr.type {κ : Type} : MetaPtr κ → κ
  | .original c => c
  | .copy c => c

@[simp] theorem MetaPtr.type_copy {κ : Type} (c : κ) : (MetaPtr.copy c).type = c := rfl

/-- `unordered_map<cstring, V, MetaStrHash, MetaStrEq>`: keys compared by
text. The order of `entries` is the model's; nothing relies on it. -/
abbrev MetaStrHashMap (V : Type) := AList (fun _ : String => V)

/-! ## What the macros record -/

/-- Whether `AsClass()` answers `this`: a `MetaClass` carries the accessor
of its parent (`m_parent`, here the type whose accessor it is). -/
inductive MetaKind (κ : Type) where
  | plain
  | cls (parent : Option κ)
  deriving DecidableEq, Repr

/-- One static metatype object: `META_REGISTER_TYPE*`, `META_REGISTER_CLASS`
or `g_metaType_void`. -/
structure Registration (κ : Type) where
  type : κ
  name : String
  kind : MetaKind κ
  deriving DecidableEq, Repr

/-- One static `MetaMemberFunction` (`META_REGISTER_FUNCTION_MEMBER`): its
name, its owner class and the types its C++ signature mentions. `ret` is
`none` for `void`. -/
structure FunctionRegistration (κ : Type) where
  name : String
  owner : κ
  ret : Option κ
  args : List κ
  deriving DecidableEq, Repr

/-- Everything linked into one program, in `m_List()` order (newest
first). `type_nodup`: the macros specialise templates on the type, so one
type has one static object. `Meta.cpp` registers `void` and
`MetaSystemExample` itself, both without a parent. -/
structure Registrations (κ : Type) where
  types : List (Registration κ)
  functions : List (FunctionRegistration κ)
  voidType : κ
  systemType : κ
  type_nodup : (types.map (·.type)).Nodup
  void_mem : ∃ r ∈ types, r.type = voidType ∧ r.kind = .cls none
  system_mem : ∃ r ∈ types, r.type = systemType ∧ r.kind = .cls none

/-! ## The metatype objects -/

/-- `FunctionSignature`; pointers are null for unregistered types. -/
structure FunctionSignature (κ : Type) where
  ret : Option (MetaPtr κ) := none
  argArray : List (Option (MetaPtr κ)) := []
  argCount : Nat := 0
  deriving DecidableEq

/-- `MetaMemberFunction`: the registration and the signature that
`Initialize()` fills in. -/
structure MetaMemberFunction (κ : Type) where
  name : String
  reg : FunctionRegistration κ
  signature : FunctionSignature κ := {}
  deriving DecidableEq

/-- `MetaDataContainer`; only `m_functions` is ever filled. -/
structure MetaDataContainer (κ : Type) where
  functions : MetaStrHashMap (MetaMemberFunction κ) := ∅

/-- The fields of a metatype object. The last four belong to `MetaClass`
and keep their initial values in a plain metatype. -/
structure MetaClass (κ : Type) where
  name : String
  kind : MetaKind κ
  globalId : Int := -1
  topoOrder : Int := -1
  baseTopoIdList : List Int := []
  metaDataContainer : Option (MetaDataContainer κ) := none

/-- `m_parent`, null in a plain metatype. -/
def MetaClass.parent {κ : Type} (mc : MetaClass κ) : Option κ :=
  match mc.kind with
  | .plain => none
  | .cls parent => parent

/-- `AsClass() != nullptr`. -/
def MetaClass.isClass {κ : Type} (mc : MetaClass κ) : Bool :=
  match mc.kind with
  | .plain => false
  | .cls _ => true

/-- The object a registration macro constructs. -/
def Registration.metaType {κ : Type} (r : Registration κ) : MetaClass κ :=
  { name := r.name, kind := r.kind }

/-! ## Reading a registration list -/

namespace Registrations

variable {κ : Type} (R : Registrations κ)

/-- The registered classes, in list order. -/
def classes : List κ :=
  (R.types.filter (·.metaType.isClass)).map (·.type)

variable {R} in
theorem mem_classes {c : κ} :
    c ∈ R.classes ↔ ∃ r ∈ R.types, r.type = c ∧ r.metaType.isClass = true := by
  simp only [classes, List.mem_map, List.mem_filter]
  constructor
  · rintro ⟨r, ⟨hr, hk⟩, rfl⟩; exact ⟨r, hr, rfl, hk⟩
  · rintro ⟨r, hr, rfl, hk⟩; exact ⟨r, ⟨hr, hk⟩, rfl⟩

theorem classes_nodup : R.classes.Nodup :=
  R.type_nodup.sublist (List.filter_sublist.map _)

theorem void_mem_classes : R.voidType ∈ R.classes := by
  obtain ⟨r, hr, hrt, hk⟩ := R.void_mem
  exact mem_classes.mpr ⟨r, hr, hrt, by simp [Registration.metaType, MetaClass.isClass, hk]⟩

theorem system_mem_classes : R.systemType ∈ R.classes := by
  obtain ⟨r, hr, hrt, hk⟩ := R.system_mem
  exact mem_classes.mpr ⟨r, hr, hrt, by simp [Registration.metaType, MetaClass.isClass, hk]⟩

variable [DecidableEq κ]

/-- The registration of a type. -/
def find (c : κ) : Option (Registration κ) :=
  R.types.find? (·.type = c)

/-- The parent link of a registered class. -/
def parentOf (c : κ) : Option κ :=
  (R.find c).bind (·.metaType.parent)

/-- The name a type is registered under. -/
def nameOf (c : κ) : String :=
  ((R.find c).map (·.name)).getD ""

variable {R}

theorem find_some {c : κ} {r : Registration κ} (h : R.find c = some r) :
    r ∈ R.types ∧ r.type = c :=
  ⟨List.mem_of_find?_eq_some h, by simpa using List.find?_some h⟩

/-- One type, one registration. -/
theorem find_of_mem {r : Registration κ} (h : r ∈ R.types) : R.find r.type = some r := by
  cases hf : R.find r.type with
  | none => exact absurd (List.find?_eq_none.mp hf r h) (by simp)
  | some r' =>
      obtain ⟨hr', ht⟩ := find_some hf
      rw [List.inj_on_of_nodup_map R.type_nodup hr' h ht]

/-- Only registered classes have a parent link. -/
theorem mem_classes_of_parentOf {c p : κ} (h : R.parentOf c = some p) : c ∈ R.classes := by
  obtain ⟨r, hr, hp⟩ := Option.bind_eq_some_iff.mp h
  obtain ⟨hmem, rfl⟩ := find_some hr
  refine mem_classes.mpr ⟨r, hmem, rfl, ?_⟩
  cases hk : r.kind with
  | plain => simp [Registration.metaType, MetaClass.parent, hk] at hp
  | cls _ => simp [Registration.metaType, MetaClass.isClass, hk]

end Registrations

end SkyEngine.Meta
