import SkyEngine.Meta.Lookup

/-!
# Meta — Cast

`MetaClass::DynamicCast` with the pointer adjustment of `CastHelper`, and
what it computes on a live object: the address of the asked-for part when
the run-time class has one, null otherwise.

The cast is split where it reads the object's class id, so that the id it
looks up can be talked about on its own.
-/

namespace SkyEngine.Meta

open Forest Position

variable {κ : Type}

/-! ## Pointer adjustment -/

variable [DecidableEq κ]

/-- Where the one `Object` subobject sits in each class; `none` for a class
that does not derive from `Object`. `MetaClassVoid` casts to null only, and
registered parents are real C++ bases: a base lies inside its derived
class, so `Object` is no further from the base's start. -/
structure Layout (R : Registrations κ) where
  objectOffset : κ → Option Nat
  void_offset : objectOffset R.voidType = none
  base_offset : ∀ c p offP, R.parentOf c = some p → objectOffset p = some offP →
    ∃ offC, objectOffset c = some offC ∧ offP ≤ offC

variable {R : Registrations κ}

namespace Layout

variable (lay : Layout R)

/-- `MetaClass::Upcast`, by `CastHelper::Up`. -/
def upcast (c : κ) (object : Int) : Int :=
  match lay.objectOffset c with
  | none => 0
  | some off => if object = 0 then 0 else object + off

/-- `MetaClass::Downcast`, by `CastHelper::Down`. -/
def downcast (c : κ) (object : Int) : Int :=
  match lay.objectOffset c with
  | none => 0
  | some off => if object = 0 then 0 else object - off

/-- The address of the `c` part of the object whose `Object` subobject is
at `o`. -/
def part (o : Int) (c : κ) : Int := o - ((lay.objectOffset c).getD 0 : Nat)

/-- The class derives from `Object`. -/
def IsObject (c : κ) : Prop := (lay.objectOffset c).isSome = true

instance (c : κ) : Decidable (lay.IsObject c) :=
  inferInstanceAs (Decidable (_ = _))

@[simp] theorem upcast_null (c : κ) : lay.upcast c 0 = 0 := by
  unfold upcast
  split <;> simp

variable {lay}

theorem upcast_part {c : κ} (hc : lay.IsObject c) {o : Int} (hp : lay.part o c ≠ 0) :
    lay.upcast c (lay.part o c) = o := by
  obtain ⟨off, hoff⟩ := Option.isSome_iff_exists.mp hc
  simp only [upcast, hoff, if_neg hp]
  simp [part, hoff]

theorem downcast_object {c : κ} (hc : lay.IsObject c) {o : Int} (ho : o ≠ 0) :
    lay.downcast c o = lay.part o c := by
  obtain ⟨off, hoff⟩ := Option.isSome_iff_exists.mp hc
  simp [downcast, part, hoff, ho]

theorem upcast_of_not_isObject {c : κ} (hc : ¬ lay.IsObject c) (o : Int) :
    lay.upcast c o = 0 := by
  have hoff : lay.objectOffset c = none := by simpa [IsObject] using hc
  simp [upcast, hoff]

/-- A part at a positive address belongs to an object at one. -/
theorem object_pos {o : Int} {c : κ} (h : 0 < lay.part o c) : 0 < o := by
  unfold part at h
  omega

/-- What is below an `Object`-derived class derives from `Object`, and its
part starts no later. -/
theorem part_le_of_ancestor {a c : κ} (hac : Ancestor R.parentOf a c) (ha : lay.IsObject a)
    (o : Int) : lay.IsObject c ∧ lay.part o c ≤ lay.part o a := by
  obtain ⟨off, hoff⟩ := Option.isSome_iff_exists.mp ha
  have hstep : ∃ offC, lay.objectOffset c = some offC ∧ off ≤ offC := by
    induction hac with
    | single hb => exact lay.base_offset _ _ _ hb hoff
    | tail _ hbc ih =>
        obtain ⟨offB, hB, hle⟩ := ih
        obtain ⟨offC, hC, hle'⟩ := lay.base_offset _ _ _ hbc hB
        exact ⟨offC, hC, hle.trans hle'⟩
  obtain ⟨offC, hC, hle⟩ := hstep
  refine ⟨by rw [IsObject, hC]; rfl, ?_⟩
  simp only [part, hoff, hC, Option.getD_some]
  omega

end Layout

/-! ## `DynamicCast` -/

/-- The `m_metaClassId` word of the `Object` at an address. -/
abbrev ObjectIds := Int → Int

/-- `DynamicCast` up to its class lookup: decided already, or about to look
up the class of the `Object` at this address. -/
inductive CastStart where
  | done (result : Int)
  | lookup (pObject : Int)
  deriving DecidableEq, Repr

def castStart (sys : MetaSystem κ) (lay : Layout R) (this : MetaPtr κ) (pObj : Int)
    (sourceType : MetaPtr κ) : CastStart :=
  if this = sourceType then .done pObj
  else if (sys.obj sourceType).isClass = false then .done 0
  else
    let pObject := lay.upcast sourceType.type pObj
    if pObject = 0 then .done 0 else .lookup pObject

def castFinish (sys : MetaSystem κ) (lay : Layout R) (this pObjectClass : MetaPtr κ)
    (pObject : Int) : Int :=
  if pObjectClass = this then lay.downcast this.type pObject
  else if (sys.obj this).topoOrder = -1 then 0
  else if (sys.obj this).topoOrder ∈ (sys.obj pObjectClass).baseTopoIdList then
    lay.downcast this.type pObject
  else 0

/-- `MetaClass::DynamicCast`; the result is what it stores in
`*ppResult`, `pObj` is `*ppObject`. -/
def dynamicCast (sys : MetaSystem κ) (lay : Layout R) (ids : ObjectIds) (this : MetaPtr κ)
    (pObj : Int) (sourceType : MetaPtr κ) : Except Fault Int :=
  match castStart sys lay this pObj sourceType with
  | .done result => .ok result
  | .lookup pObject => do
      let pObjectClass ← sys.getMetaClassById (ids pObject)
      .ok (castFinish sys lay this pObjectClass pObject)

/-- The cast either steps down from the `Object` or gives null. -/
theorem castFinish_cases (sys : MetaSystem κ) (lay : Layout R) (this pObjectClass : MetaPtr κ)
    (pObject : Int) :
    castFinish sys lay this pObjectClass pObject = lay.downcast this.type pObject
      ∨ castFinish sys lay this pObjectClass pObject = 0 := by
  unfold castFinish
  split
  · exact .inl rfl
  · split
    · exact .inr rfl
    · split
      · exact .inl rfl
      · exact .inr rfl

/-- A cast to the source class itself is the identity, null included. -/
theorem dynamicCast_self (sys : MetaSystem κ) (lay : Layout R) (ids : ObjectIds)
    (mc : MetaPtr κ) (pObj : Int) : dynamicCast sys lay ids mc pObj mc = .ok pObj := by
  simp [dynamicCast, castStart]

/-- A null pointer casts to null, whatever the two types. -/
theorem dynamicCast_null (sys : MetaSystem κ) (lay : Layout R) (ids : ObjectIds)
    (this sourceType : MetaPtr κ) : dynamicCast sys lay ids this 0 sourceType = .ok 0 := by
  have hstart : castStart sys lay this 0 sourceType = .done 0 := by
    unfold castStart
    split
    · rfl
    · split
      · rfl
      · simp
  simp [dynamicCast, hstart]

namespace Registry

variable {sys : MetaSystem κ} {ord tops : List κ} {lay : Layout R} {ids : ObjectIds}

theorem isClass (h : Registry R sys ord tops) {c : κ} (hc : c ∈ R.classes) :
    (sys.obj (.copy c)).isClass = true := by
  obtain ⟨r, hr, rfl, hk⟩ := Registrations.mem_classes.mp hc
  rw [MetaClass.isClass, h.kind, statics_original hr]
  exact hk

/-- After the lookup the cast succeeds exactly on the run-time class and
the classes above it. -/
theorem castFinish_eq (h : Registry R sys ord tops) (hR : R.WellLinked) {T D : κ}
    (hD : D ∈ ord) (o : Int) [Decidable (T = D ∨ Ancestor R.parentOf T D)] :
    castFinish sys lay (.copy T) (.copy D) o
      = if T = D ∨ Ancestor R.parentOf T D then lay.downcast T o else 0 := by
  unfold castFinish
  by_cases hTD : T = D
  · subst hTD
    simp [MetaPtr.type]
  · have hne : (MetaPtr.copy D) ≠ .copy T := by
      intro he
      cases he
      exact hTD rfl
    rw [if_neg hne]
    by_cases htopo : (sys.obj (.copy T)).topoOrder = -1
    · -- no child, so above nothing
      have hnot := h.not_ancestor_of_topoOrder hR hD htopo
      rw [if_pos htopo, if_neg (by simp [hTD, hnot])]
    · have hT : T ∈ tops := by simpa [h.topo_eq] using htopo
      rw [if_neg htopo]
      simp only [h.topoOrder_mem_bases hR hD hT]
      by_cases hanc : Ancestor R.parentOf T D
      · simp [hanc, MetaPtr.type]
      · simp [hTD, hanc]

/-- **What the cast computes**, for a run-time class `D` that is listed
under its own name. -/
theorem dynamicCast_eq (h : Registry R sys ord tops) (hR : R.WellLinked) {S T D : κ}
    (hS : S ∈ R.classes) (hT : T ∈ R.classes) (hD : R.Listed D)
    (hSD : S = D ∨ Ancestor R.parentOf S D) (hSo : lay.IsObject S) (hTo : lay.IsObject T)
    {o : Int} (hlive : 0 < lay.part o S) (hid : ids o = sys.metaClassIdOf D)
    [Decidable (T = D ∨ Ancestor R.parentOf T D)] :
    dynamicCast sys lay ids (sys.self T) (lay.part o S) (sys.self S)
      = .ok (if T = D ∨ Ancestor R.parentOf T D then lay.part o T else 0) := by
  rw [h.self_eq T hT, h.self_eq S hS]
  by_cases hTS : T = S
  · subst hTS
    rw [dynamicCast_self, if_pos hSD]
  · have ho := Layout.object_pos hlive
    have hup : lay.upcast S (lay.part o S) = o := Layout.upcast_part hSo (by omega)
    have hstart : castStart sys lay (.copy T) (lay.part o S) (.copy S) = .lookup o := by
      have hne : (MetaPtr.copy T) ≠ .copy S := by simpa using hTS
      rw [castStart, if_neg hne, h.isClass hS]
      simp only [Bool.true_eq_false, if_false, MetaPtr.type, hup]
      rw [if_neg (by omega)]
    have hlook : sys.getMetaClassById (ids o) = .ok (.copy D) := by
      rw [hid, h.metaClassIdOf hD.mem_classes]
      exact h.getMetaClassById hR hD
    simp only [dynamicCast, hstart, hlook, bind, Except.bind]
    rw [h.castFinish_eq hR (h.listed_sub D hD), Layout.downcast_object hTo (by omega)]

end Registry

/-- **`DynamicCast` is correct.** On any initialised system, casting a live
object of run-time class `D` from its `S` part to `T` stores the address of
the `T` part when `T` is `D` or above it, and null otherwise. -/
theorem dynamicCast_correct (hR : R.WellLinked) (hnames : (R.types.map (·.name)).Nodup)
    {walk : List (MetaPtr κ)} (hw : R.Walk walk) {fuel : Nat}
    (hfuel : R.classes.length ≤ fuel) {sys : MetaSystem κ}
    (hinit : initializeSystem R walk fuel = .ok sys) (lay : Layout R) (ids : ObjectIds)
    {S T D : κ} (hS : S ∈ R.classes) (hT : T ∈ R.classes) (hD : D ∈ R.classes)
    (hSo : lay.IsObject S) (hTo : lay.IsObject T) (hSD : D = S ∨ Ancestor R.parentOf S D)
    {o : Int} (hlive : 0 < lay.part o S) (hid : ids o = sys.metaClassIdOf D) :
    (T = D ∨ Ancestor R.parentOf T D →
        dynamicCast sys lay ids (sys.self T) (lay.part o S) (sys.self S)
          = .ok (lay.part o T))
      ∧ (¬ (T = D ∨ Ancestor R.parentOf T D) →
        dynamicCast sys lay ids (sys.self T) (lay.part o S) (sys.self S) = .ok 0) := by
  classical
  obtain ⟨ord, tops, hreg⟩ := initializeSystem_registry hR hw hfuel hinit
  have hSD' : S = D ∨ Ancestor R.parentOf S D := hSD.imp Eq.symm id
  rw [hreg.dynamicCast_eq hR hS hT (listed_of_distinct hnames hD) hSD' hSo hTo hlive hid]
  constructor
  · intro hcond
    rw [if_pos hcond]
  · intro hcond
    rw [if_neg hcond]

/-! ## The sample's layout -/

/-- A vtable puts `Object` at offset 8. -/
def sampleLayout : Layout sampleProgram where
  objectOffset
    | .void => none
    | .int32 => none
    | .base => some 8
    | .derived => some 8
    | .sprite => some 8
    | _ => some 0
  void_offset := rfl
  base_offset := by
    have hpar : ∀ c p, sampleProgram.parentOf c = some p →
        (c = .derived ∧ p = .base) ∨ (c = .sprite ∧ p = .pod) := by
      intro c p
      cases c <;> cases p <;> decide
    intro c p offP hp hoff
    rcases hpar c p hp with ⟨rfl, rfl⟩ | ⟨rfl, rfl⟩
    · cases hoff
      exact ⟨8, rfl, by omega⟩
    · cases hoff
      exact ⟨8, rfl, by omega⟩

/-- A `derived` object at 4096, narrowed from its `base` part. -/
theorem dynamicCast_correct_sample :
    ∃ sys, initializeSystem sampleProgram sampleWalk 8 = .ok sys
      ∧ dynamicCast sys sampleLayout (fun _ => sys.metaClassIdOf .derived)
          (sys.self .derived) 4096 (sys.self .base) = .ok 4096 := by
  obtain ⟨sys, hsys⟩ := initializeSystem_sample
  have h := dynamicCast_correct sampleProgram_wellLinked sampleProgram_names sampleWalk_walk
    sampleProgram_fuel hsys sampleLayout (fun _ => sys.metaClassIdOf .derived) (S := .base)
    (T := .derived) (D := .derived) (by decide) (by decide) (by decide) (by decide)
    (by decide) (.inr (.parent (by decide))) (o := 4104) (by decide) rfl
  exact ⟨sys, hsys, h.1 (.inl rfl)⟩

end SkyEngine.Meta
