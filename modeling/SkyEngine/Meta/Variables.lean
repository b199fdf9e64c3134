import SkyEngine.Meta.Cast
import SkyEngine.Meta.Scalar

/-!
# Meta — Variables

`MetaMemberVariable` (`Base/Meta.hpp`, `Base/Meta.cpp`): where a registered
member of a live object is (`ResolveMember`) and how many elements a
registered array has (`Count`).

A `PMember` is the member's offset in its class. Every function takes the
pointer kept in the caller's variable, where the source takes the address
of that variable.
-/

namespace SkyEngine.Meta

open Forest Binary64

variable {κ : Type}

/-! ## Registrations -/

/-- What the getter of a member's type or count type names. -/
inductive MemberType (κ : Type) where
  | unregistered
  | void
  | scalar (t : ScalarType)
  | cls (c : κ)
  deriving DecidableEq

/-- `MetaMemberVariable`; the defaults are those of its declaration. -/
structure MetaMemberVariable (κ : Type) where
  name : String
  type : MemberType κ
  owner : κ
  address : Nat
  countType : MemberType κ := .void
  countAddress : Option Nat := none
  staticArraySize : Nat := 0
  deriving DecidableEq

namespace MetaMemberVariable

/-- The constructor for `Type Class::*`. -/
def simple (name : String) (type : MemberType κ) (owner : κ) (address : Nat) :
    MetaMemberVariable κ :=
  { name := name, type := type, owner := owner, address := address }

/-- The constructor for `Type *Class::*` with a count. -/
def dynamicArray (name : String) (type : MemberType κ) (owner : κ) (address : Nat)
    (countType : MemberType κ) (count : Nat) : MetaMemberVariable κ :=
  { simple name type owner address with countType := countType, countAddress := some count }

/-- The constructor for `Type (Class::*)[N]` with a count. -/
def staticArray (name : String) (type : MemberType κ) (owner : κ) (address : Nat)
    (countType : MemberType κ) (count N : Nat) : MetaMemberVariable κ :=
  { dynamicArray name type owner address countType count with staticArraySize := N }

end MetaMemberVariable

/-! ## `ResolveMember` -/

variable [DecidableEq κ] {R : Registrations κ}

/-- `ResolveMember`. `MetaClassVoid` has none. -/
def resolveMember (sys : MetaSystem κ) (lay : Layout R) (ids : ObjectIds) (this : MetaPtr κ)
    (pObj : Int) (pClass : MetaPtr κ) (pContext : Nat) : Except Fault Int :=
  if this.type = R.voidType then .ok 0
  else do
    let pObject ← dynamicCast sys lay ids this pObj pClass
    if pObject = 0 then .error .assertion else .ok (pObject + pContext)

/-- **`ResolveMember` is correct.** On any initialised system, a member of
class `T` resolved on a live object of run-time class `D` is found at its
offset in the object's `T` part, through whichever static class `S` the
caller holds the object; the assertion fires exactly when `D` is not `T`
nor below it. `S` and `T` derive from `Object`: the way from one part of an
object to another leads through its `Object` part. -/
theorem resolveMember_correct (hR : R.WellLinked) (hnames : (R.types.map (·.name)).Nodup)
    {walk : List (MetaPtr κ)} (hw : R.Walk walk) {fuel : Nat}
    (hfuel : R.classes.length ≤ fuel) {sys : MetaSystem κ}
    (hinit : initializeSystem R walk fuel = .ok sys) (lay : Layout R) (ids : ObjectIds)
    {S T D : κ} (hS : S ∈ R.classes) (hT : T ∈ R.classes) (hD : D ∈ R.classes)
    (hSo : lay.IsObject S) (hTo : lay.IsObject T) (hSD : D = S ∨ Ancestor R.parentOf S D)
    {o : Int} (hlive : 0 < lay.part o D) (hid : ids o = sys.metaClassIdOf D) (off : Nat) :
    (T = D ∨ Ancestor R.parentOf T D →
        resolveMember sys lay ids (sys.self T) (lay.part o S) (sys.self S) off
          = .ok (lay.part o T + off))
      ∧ (¬ (T = D ∨ Ancestor R.parentOf T D) →
        resolveMember sys lay ids (sys.self T) (lay.part o S) (sys.self S) off
          = .error .assertion) := by
  classical
  obtain ⟨ord, tops, hreg⟩ := initializeSystem_registry hR hw hfuel hinit
  have hpos : ∀ E, E = D ∨ Ancestor R.parentOf E D → lay.IsObject E → 0 < lay.part o E := by
    rintro E (rfl | hanc) hEo
    · exact hlive
    · exact hlive.trans_le (Layout.part_le_of_ancestor hanc hEo o).2
  have hSD' : S = D ∨ Ancestor R.parentOf S D := hSD.imp Eq.symm id
  have hcast := hreg.dynamicCast_eq hR hS hT (listed_of_distinct hnames hD) hSD' hSo hTo
    (hpos S hSD' hSo) hid
  have hTvoid : T ≠ R.voidType := by
    rintro rfl
    simp [Layout.IsObject, lay.void_offset] at hTo
  have htype : (sys.self T).type = T := by
    rw [hreg.self_eq T hT]
    rfl
  simp only [resolveMember, htype, if_neg hTvoid, hcast, bind, Except.bind]
  constructor
  · intro hcond
    have hne := hpos T hcond hTo
    rw [if_pos hcond, if_neg (by omega)]
  · intro hcond
    rw [if_neg hcond, if_pos rfl]

/-- A `derived` held as a `base` has the members of `base`; held as a
`base`, a member of `derived` is found too. -/
theorem resolveMember_correct_sample :
    ∃ sys, initializeSystem sampleProgram sampleWalk 8 = .ok sys
      ∧ resolveMember sys sampleLayout (fun _ => sys.metaClassIdOf .derived)
          (sys.self .derived) 4096 (sys.self .base) 40 = .ok 4136 := by
  obtain ⟨sys, hsys⟩ := initializeSystem_sample
  have h := resolveMember_correct sampleProgram_wellLinked sampleProgram_names sampleWalk_walk
    sampleProgram_fuel hsys sampleLayout (fun _ => sys.metaClassIdOf .derived) (S := .base)
    (T := .derived) (D := .derived) (by decide) (by decide) (by decide) (by decide)
    (by decide) (.inr (.parent (by decide))) (o := 4104) (by decide) rfl 40
  exact ⟨sys, hsys, h.1 (.inl rfl)⟩

/-! ## `Count` -/

/-- `type->ToNumber(p)`, where `mem` is the value of a type at an address.
Only the classes, `void` among them, do not look at it. -/
def toNumberAt (buf : Buffers) (mem : ScalarType → Int → Datum) (p : Int) :
    MemberType κ → Except Fault Double
  | .unregistered => .error .nullDeref
  | .void => .ok .zero
  | .cls _ => .ok .zero
  | .scalar t => if p = 0 then .error .nullDeref else (mem t p).toNumber buf

/-- `(size_t)num`. -/
def toSize (num : Double) : Except Fault Nat := do
  let v ← castInt .uint64 num
  .ok v.val.toNat

/-- `MetaMemberVariable::Count`. -/
def MetaMemberVariable.count (x : MetaMemberVariable κ) (sys : MetaSystem κ) (lay : Layout R)
    (ids : ObjectIds) (buf : Buffers) (mem : ScalarType → Int → Datum) (pObj : Int) :
    Except Fault Nat := do
  let p ← match x.countAddress with
    | none => .ok 0
    | some count =>
        match R.mustCall sys.self x.owner with
        | none => .error .nullDeref
        | some mc => resolveMember sys lay ids mc pObj mc count
  let num ← toNumberAt buf mem p x.countType
  toSize num

/-- An integer survives the way through a double into a `size_t` exactly
when it is not negative and fits 53 bits. -/
theorem toSize_ofInt_iff {v : Int} (hv : v < 2 ^ 64) :
    (∃ n : Nat, toSize (.ofInt v) = .ok n ∧ (n : Int) = v)
      ↔ 0 ≤ v ∧ Rounding.Fits 53 v.natAbs := by
  constructor
  · rintro ⟨n, hsize, hn⟩
    obtain ⟨w, hcast, hret⟩ := bind_ok hsize
    cases hret
    have hw : 0 ≤ w.val := by
      have h := w.property
      simp only [IntType.Holds, IntType.signed, Bool.false_eq_true, if_false] at h
      exact h.1
    have hv0 : w.val = v := by omega
    have htrunc := castInt_ok_iff.mp hcast
    rw [hv0, Double.trunc_ofInt_iff] at htrunc
    exact ⟨by omega, htrunc⟩
  · rintro ⟨hv0, hfits⟩
    have hholds : IntType.uint64.Holds v := ⟨hv0, hv⟩
    refine ⟨v.toNat, ?_, by omega⟩
    rw [toSize, (castInt_ofInt_iff hholds).mpr hfits]
    rfl

/-- Every integer type stays below `2 ^ 64`. -/
theorem IntType.Holds.lt_two_pow {t : IntType} {v : Int} (h : t.Holds v) : v < 2 ^ 64 := by
  cases t <;> simp only [IntType.Holds, IntType.signed, IntType.bits] at h <;> norm_num at h <;>
    omega

/-- A member that is no array has no elements, whatever the pointer. -/
theorem count_simple (sys : MetaSystem κ) (lay : Layout R) (ids : ObjectIds) (buf : Buffers)
    (mem : ScalarType → Int → Datum) (name : String) (type : MemberType κ) (owner : κ)
    (address : Nat) (pObj : Int) :
    (MetaMemberVariable.simple name type owner address).count sys lay ids buf mem pObj
      = .ok 0 := by
  have hsize : toSize .zero = .ok 0 := by decide
  exact hsize

/-- **`Count` is exact** for precisely the element counts a double keeps:
on an object at `pObj` of the class that registers the array, whether or not
that class derives from `Object`, it returns the count stored at the address
`ResolveMember` gives exactly when that count is not negative and fits 53
bits. -/
theorem count_exact_iff (hR : R.WellLinked) {walk : List (MetaPtr κ)} (hw : R.Walk walk)
    {fuel : Nat} (hfuel : R.classes.length ≤ fuel) {sys : MetaSystem κ}
    (hinit : initializeSystem R walk fuel = .ok sys) (lay : Layout R) (ids : ObjectIds)
    (buf : Buffers) (mem : ScalarType → Int → Datum) {x : MetaMemberVariable κ} {off : Nat}
    (hoff : x.countAddress = some off) {t : IntType}
    (htype : x.countType = .scalar (.number (.int t))) (hT : x.owner ∈ R.classes)
    (hTvoid : x.owner ≠ R.voidType) {pObj : Int} (hlive : 0 < pObj) {v : t.Val}
    (hv : mem (.number (.int t)) (pObj + off) = .int t v) :
    (∃ n : Nat, x.count sys lay ids buf mem pObj = .ok n ∧ (n : Int) = v.val)
      ↔ 0 ≤ v.val ∧ Rounding.Fits 53 v.val.natAbs := by
  obtain ⟨ord, tops, hreg⟩ := initializeSystem_registry hR hw hfuel hinit
  have hclass : R.mustCall sys.self x.owner = some (.copy x.owner) := by
    rw [Registrations.mustCall, if_pos hT, hreg.self_eq _ hT]
  have hresolve : resolveMember sys lay ids (.copy x.owner) pObj (.copy x.owner) off
      = .ok (pObj + off) := by
    have hne : ¬ (MetaPtr.copy x.owner).type = R.voidType := hTvoid
    rw [resolveMember, if_neg hne, dynamicCast_self]
    show (if pObj = 0 then _ else _) = _
    rw [if_neg (by omega)]
  have hcount : x.count sys lay ids buf mem pObj = toSize (.ofInt v.val) := by
    have hne : ¬ pObj + (off : Int) = 0 := by omega
    simp only [MetaMemberVariable.count, hoff, hclass, hresolve, htype, bind, Except.bind,
      toNumberAt, if_neg hne, hv, Datum.toNumber]
  rw [hcount]
  exact toSize_ofInt_iff v.property.lt_two_pow

/-- `slots[8]` of `base`, three of them in use. -/
def sampleSlots : MetaMemberVariable SampleType :=
  .staticArray "slots" (.scalar (.number (.int .int32))) .base 16
    (.scalar (.number (.int .uint16))) 48 8

theorem count_exact_iff_sample :
    ∃ sys, initializeSystem sampleProgram sampleWalk 8 = .ok sys
      ∧ ∃ n : Nat, sampleSlots.count sys sampleLayout (fun _ => sys.metaClassIdOf .derived)
          (fun _ => []) (fun _ _ => .int .uint16 ⟨3, by decide⟩) 4096 = .ok n
        ∧ (n : Int) = 3 := by
  obtain ⟨sys, hsys⟩ := initializeSystem_sample
  have hvoid : sampleSlots.owner ≠ sampleProgram.voidType := by decide
  have hlive : (0 : Int) < 4096 := by decide
  have h := count_exact_iff sampleProgram_wellLinked sampleWalk_walk sampleProgram_fuel hsys
    sampleLayout (fun _ => sys.metaClassIdOf .derived) (fun _ => [])
    (fun _ _ => .int .uint16 ⟨3, by decide⟩) (x := sampleSlots) rfl rfl (by decide) hvoid
    hlive rfl
  exact ⟨sys, hsys, h.mpr (by decide)⟩

end SkyEngine.Meta
