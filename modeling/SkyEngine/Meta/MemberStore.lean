import SkyEngine.Lib.ByteInt
import SkyEngine.Meta.Variables

/-!
# Meta — MemberStore

Reading and writing the integer members of live objects through
reflection, the way a serializer does: `ResolveMember` gives the address,
the member's metatype converts what goes there. Over any run of such
writes a member holds what was last written to it, whichever static class
each access went through.
-/

namespace SkyEngine.Meta

open Forest Binary64 ByteMemory

variable {κ : Type}

/-- `sizeof` of an integer type. -/
def IntType.bytes (t : IntType) : Nat := t.bits / 8

theorem IntType.bytes_pos (t : IntType) : 0 < t.bytes := by
  cases t <;> decide

theorem IntType.Holds.inRange {t : IntType} {v : Int} (h : t.Holds v) :
    InRange (8 * t.bytes) t.signed v := by
  have hbits : 8 * t.bytes = t.bits := by cases t <;> rfl
  rw [hbits]
  exact h

/-- A registered member of an integer type. -/
structure IntMember (κ : Type) where
  registration : MetaMemberVariable κ
  int : IntType
  type_eq : registration.type = .scalar (.number (.int int))
  deriving DecidableEq

/-- A live object: where its `Object` subobject is, and its run-time class. -/
structure LiveObject (κ : Type) where
  object : Int
  cls : κ
  deriving DecidableEq

/-- An access to a member of an object held through the static class `via`. -/
structure Access (κ : Type) where
  target : LiveObject κ
  member : IntMember κ
  via : κ

/-- A write: what is written, and the access. -/
structure MemberWrite (κ : Type) extends Access κ where
  source : Datum

section Defs

variable [DecidableEq κ] {R : Registrations κ} (sys : MetaSystem κ) (lay : Layout R)
  (ids : ObjectIds)

/-- `mc->ResolveMember(&pObj, pClass, x.Address())` with the member's own
class and the pointer of the static class. -/
def resolveAccess (a : Access κ) : Except Fault Int :=
  match R.mustCall sys.self a.member.registration.owner with
  | none => .error .nullDeref
  | some mc =>
      resolveMember sys lay ids mc (lay.part a.target.object a.via) (sys.self a.via)
        a.member.registration.address

/-- Reading the member at the resolved address. -/
def readMember (m : Memory) (a : Access κ) : Except Fault Int := do
  let p ← resolveAccess sys lay ids a
  .ok (loadInt m p.toNat a.member.int.bytes a.member.int.signed)

/-- `x.GetType()->DynamicCast(p, source, sourceType)` at the resolved
address. -/
def writeMember (buf : Buffers) (m : Memory) (w : MemberWrite κ) : Except Fault Memory := do
  let p ← resolveAccess sys lay ids w.toAccess
  let num ← w.source.toNumber buf
  let v ← castInt w.member.int num
  .ok (storeInt m p.toNat w.member.int.bytes v.val)

end Defs

/-! ## Where a member is -/

/-- The object is there, through `via` and with the member's class, and both
of these derive from `Object`. -/
structure Access.Live [DecidableEq κ] {R : Registrations κ} (sys : MetaSystem κ)
    (lay : Layout R) (ids : ObjectIds) (a : Access κ) : Prop where
  registered : a.target.cls ∈ R.classes ∧ a.via ∈ R.classes
    ∧ a.member.registration.owner ∈ R.classes
  object : lay.IsObject a.via ∧ lay.IsObject a.member.registration.owner
  via : a.target.cls = a.via ∨ Ancestor R.parentOf a.via a.target.cls
  owner : a.member.registration.owner = a.target.cls
    ∨ Ancestor R.parentOf a.member.registration.owner a.target.cls
  placed : 0 < lay.part a.target.object a.target.cls
  label : ids a.target.object = sys.metaClassIdOf a.target.cls

/-- The first byte of a member of an object. -/
def cell [DecidableEq κ] {R : Registrations κ} (lay : Layout R) (i : LiveObject κ)
    (x : IntMember κ) : Nat :=
  (lay.part i.object x.registration.owner + x.registration.address).toNat

/-- Different members, of one object or of two, share no byte. -/
def CellsApart [DecidableEq κ] {R : Registrations κ} (lay : Layout R) (a b : Access κ) : Prop :=
  (a.target = b.target ∧ a.member = b.member)
    ∨ cell lay a.target a.member + a.member.int.bytes ≤ cell lay b.target b.member
    ∨ cell lay b.target b.member + b.member.int.bytes ≤ cell lay a.target a.member

/-- What a member holds after these writes, having held `v` before: the
last value converted for it. -/
def lastValue [DecidableEq κ] (buf : Buffers) (a : Access κ) (v : Int) :
    List (MemberWrite κ) → Int
  | [] => v
  | w :: ws =>
      if w.target = a.target ∧ w.member = a.member then
        match w.source.toNumber buf >>= castInt w.member.int with
        | .ok v' => lastValue buf a v'.val ws
        | .error _ => lastValue buf a v ws
      else lastValue buf a v ws

section Runs

variable [DecidableEq κ] {R : Registrations κ}

theorem resolveAccess_eq (hR : R.WellLinked) (hnames : (R.types.map (·.name)).Nodup)
    {walk : List (MetaPtr κ)} (hw : R.Walk walk) {fuel : Nat}
    (hfuel : R.classes.length ≤ fuel) {sys : MetaSystem κ}
    (hinit : initializeSystem R walk fuel = .ok sys) {lay : Layout R} {ids : ObjectIds}
    {a : Access κ} (ha : a.Live sys lay ids) :
    ∃ p, resolveAccess sys lay ids a = .ok p ∧ p.toNat = cell lay a.target a.member := by
  obtain ⟨hD, hS, hT⟩ := ha.registered
  have hclass : R.mustCall sys.self a.member.registration.owner
      = some (sys.self a.member.registration.owner) := if_pos hT
  have hresolve := (resolveMember_correct hR hnames hw hfuel hinit lay ids hS hT hD ha.object.1
    ha.object.2 ha.via ha.placed ha.label a.member.registration.address).1 ha.owner
  refine ⟨_, ?_, rfl⟩
  simp only [resolveAccess, hclass, hresolve]

/-- A write that returns has stored the converted value in its cell. -/
theorem writeMember_ok (hR : R.WellLinked) (hnames : (R.types.map (·.name)).Nodup)
    {walk : List (MetaPtr κ)} (hw : R.Walk walk) {fuel : Nat}
    (hfuel : R.classes.length ≤ fuel) {sys : MetaSystem κ}
    (hinit : initializeSystem R walk fuel = .ok sys) {lay : Layout R} {ids : ObjectIds}
    {w : MemberWrite κ} (hlive : w.Live sys lay ids) {buf : Buffers} {m m' : Memory}
    (h : writeMember sys lay ids buf m w = .ok m') :
    ∃ v, w.source.toNumber buf >>= castInt w.member.int = .ok v
      ∧ m' = storeInt m (cell lay w.target w.member) w.member.int.bytes v.val := by
  obtain ⟨p, hp, hcell⟩ := resolveAccess_eq hR hnames hw hfuel hinit hlive
  obtain ⟨p', hp', h⟩ := bind_ok h
  cases hp.symm.trans hp'
  obtain ⟨num, hnum, h⟩ := bind_ok h
  obtain ⟨v, hv, h⟩ := bind_ok h
  cases h
  refine ⟨v, ?_, by rw [hcell]⟩
  rw [hnum]
  exact hv

/-- A write returns where its conversion is defined, and nowhere else. -/
theorem writeMember_returns_iff (hR : R.WellLinked) (hnames : (R.types.map (·.name)).Nodup)
    {walk : List (MetaPtr κ)} (hw : R.Walk walk) {fuel : Nat}
    (hfuel : R.classes.length ≤ fuel) {sys : MetaSystem κ}
    (hinit : initializeSystem R walk fuel = .ok sys) {lay : Layout R} {ids : ObjectIds}
    {w : MemberWrite κ} (hlive : w.Live sys lay ids) (buf : Buffers) (m : Memory) :
    (∃ m', writeMember sys lay ids buf m w = .ok m')
      ↔ ∃ v, w.source.toNumber buf >>= castInt w.member.int = .ok v := by
  constructor
  · rintro ⟨m', h⟩
    obtain ⟨v, hv, _⟩ := writeMember_ok hR hnames hw hfuel hinit hlive h
    exact ⟨v, hv⟩
  · rintro ⟨v, hv⟩
    obtain ⟨p, hp, _⟩ := resolveAccess_eq hR hnames hw hfuel hinit hlive
    obtain ⟨num, hnum, hcast⟩ := bind_ok hv
    refine ⟨storeInt m p.toNat w.member.int.bytes v.val, ?_⟩
    simp only [writeMember, hp, hnum, hcast, bind, Except.bind]

/-- So does a run of them. -/
theorem writes_return_iff (hR : R.WellLinked) (hnames : (R.types.map (·.name)).Nodup)
    {walk : List (MetaPtr κ)} (hw : R.Walk walk) {fuel : Nat}
    (hfuel : R.classes.length ≤ fuel) {sys : MetaSystem κ}
    (hinit : initializeSystem R walk fuel = .ok sys) {lay : Layout R} {ids : ObjectIds}
    {buf : Buffers} {ws : List (MemberWrite κ)} (hlive : ∀ w ∈ ws, w.Live sys lay ids)
    (m : Memory) :
    (∃ m', ws.foldlM (writeMember sys lay ids buf) m = .ok m')
      ↔ ∀ w ∈ ws, ∃ v, w.source.toNumber buf >>= castInt w.member.int = .ok v := by
  induction ws generalizing m with
  | nil => exact ⟨fun _ w hw => absurd hw List.not_mem_nil, fun _ => ⟨m, rfl⟩⟩
  | cons w ws ih =>
      have hfirst := writeMember_returns_iff hR hnames hw hfuel hinit
        (hlive w List.mem_cons_self) buf m
      have hrest := ih fun w' hw' => hlive w' (List.mem_cons_of_mem w hw')
      rw [List.foldlM_cons]
      constructor
      · rintro ⟨m', hrun⟩
        obtain ⟨m₁, hwrite, hrun⟩ := bind_ok hrun
        have hconv := (hrest m₁).mp ⟨m', hrun⟩
        exact List.forall_mem_cons.mpr ⟨hfirst.mp ⟨m₁, hwrite⟩, hconv⟩
      · intro hconv
        obtain ⟨hhead, htail⟩ := List.forall_mem_cons.mp hconv
        obtain ⟨m₁, hwrite⟩ := hfirst.mpr hhead
        rw [hwrite]
        exact (hrest m₁).mpr htail

/-- **A member holds what was last written to it.** A run of reflective
writes returns exactly where every conversion in it is defined. After one
that returns, to members whose cells lie apart, reading a member through any
static class gives the last value converted for it, or what it held before
when nothing was written to it. -/
theorem readMember_after_writes (hR : R.WellLinked) (hnames : (R.types.map (·.name)).Nodup)
    {walk : List (MetaPtr κ)} (hw : R.Walk walk) {fuel : Nat}
    (hfuel : R.classes.length ≤ fuel) {sys : MetaSystem κ}
    (hinit : initializeSystem R walk fuel = .ok sys) {lay : Layout R} {ids : ObjectIds}
    (buf : Buffers) {ws : List (MemberWrite κ)} (hlive : ∀ w ∈ ws, w.Live sys lay ids)
    {a : Access κ} (ha : a.Live sys lay ids) (hapart : ∀ w ∈ ws, CellsApart lay w.toAccess a)
    (m : Memory) :
    ((∃ m', ws.foldlM (writeMember sys lay ids buf) m = .ok m')
        ↔ ∀ w ∈ ws, ∃ v, w.source.toNumber buf >>= castInt w.member.int = .ok v)
      ∧ ∃ v, readMember sys lay ids m a = .ok v
        ∧ ∀ m', ws.foldlM (writeMember sys lay ids buf) m = .ok m' →
          readMember sys lay ids m' a = .ok (lastValue buf a v ws) := by
  refine ⟨writes_return_iff hR hnames hw hfuel hinit hlive m, ?_⟩
  obtain ⟨p, hp, hcell⟩ := resolveAccess_eq hR hnames hw hfuel hinit ha
  have hread : ∀ m, readMember sys lay ids m a
      = .ok (loadInt m (cell lay a.target a.member) a.member.int.bytes a.member.int.signed) := by
    intro m₀
    rw [readMember, hp, ← hcell]
    rfl
  refine ⟨_, hread m, fun m' hrun => ?_⟩
  induction ws generalizing m with
  | nil =>
      cases hrun
      exact hread _
  | cons w ws ih =>
      rw [List.foldlM_cons] at hrun
      obtain ⟨m₁, hwrite, hrest⟩ := bind_ok hrun
      have hnext := ih (fun w' hw' => hlive w' (List.mem_cons_of_mem w hw'))
        (fun w' hw' => hapart w' (List.mem_cons_of_mem w hw')) m₁ hrest
      obtain ⟨v', hconv, hm₁⟩ :=
        writeMember_ok hR hnames hw hfuel hinit (hlive w List.mem_cons_self) hwrite
      rw [hnext]
      by_cases hsame : w.target = a.target ∧ w.member = a.member
      · -- this write is to the member itself
        have hstored : loadInt m₁ (cell lay a.target a.member) a.member.int.bytes
            a.member.int.signed = v'.val := by
          rw [hm₁, ← hsame.1, ← hsame.2]
          exact loadInt_storeInt w.member.int.bytes_pos v'.property.inRange
        simp only [lastValue, if_pos hsame, hconv, hstored]
      · have hdisjoint := (hapart w List.mem_cons_self).resolve_left hsame
        have hkept := (agree_storeInt_apart (m := m) (v := v'.val) hdisjoint).loadInt
          a.member.int.signed
        rw [← hm₁] at hkept
        simp only [lastValue, if_neg hsame, hkept]

end Runs

/-! ## At the sample -/

/-- `int32_t health` of `base`. -/
def sampleHealth : IntMember SampleType where
  registration := .simple "health" (.scalar (.number (.int .int32))) .base 16
  int := .int32
  type_eq := rfl

/-- A `derived` object at 4096, its `health` accessed through `via`. -/
def sampleAccess (via : SampleType) : Access SampleType where
  target := ⟨4104, .derived⟩
  member := sampleHealth
  via := via

/-- `health` set to `true` through `base`, then to `7` through `derived`. -/
def sampleWrites : List (MemberWrite SampleType) :=
  [{ sampleAccess .base with source := .bool true },
    { sampleAccess .derived with source := .int .int32 ⟨7, by decide⟩ }]

/-- The second write is what `base` reads. -/
theorem readMember_after_writes_sample :
    ∃ sys m, initializeSystem sampleProgram sampleWalk 8 = .ok sys
      ∧ sampleWrites.foldlM (writeMember sys sampleLayout
          (fun _ => sys.metaClassIdOf .derived) (fun _ => [])) (fun _ => 0) = .ok m
      ∧ readMember sys sampleLayout (fun _ => sys.metaClassIdOf .derived) m
          (sampleAccess .base) = .ok 7 := by
  obtain ⟨sys, hsys⟩ := initializeSystem_sample
  have hanc : Ancestor sampleProgram.parentOf .base .derived := .parent (by decide)
  have hbase : (sampleAccess .base).Live sys sampleLayout
      (fun _ => sys.metaClassIdOf .derived) :=
    ⟨by decide, by decide, .inr hanc, .inr hanc, by decide, rfl⟩
  have hderived : (sampleAccess .derived).Live sys sampleLayout
      (fun _ => sys.metaClassIdOf .derived) :=
    ⟨by decide, by decide, .inl rfl, .inr hanc, by decide, rfl⟩
  have hlive : ∀ w ∈ sampleWrites,
      w.Live sys sampleLayout (fun _ => sys.metaClassIdOf .derived) := by
    simpa only [sampleWrites, List.forall_mem_cons, List.not_mem_nil, false_imp_iff,
      implies_true, and_true] using And.intro hbase hderived
  have hapart : ∀ w ∈ sampleWrites, CellsApart sampleLayout w.toAccess (sampleAccess .base) := by
    simp [sampleWrites, CellsApart, sampleAccess]
  obtain ⟨hreturns, v, _, hread⟩ := readMember_after_writes sampleProgram_wellLinked
    sampleProgram_names sampleWalk_walk sampleProgram_fuel hsys (fun _ => []) hlive hbase hapart
    (fun _ => 0)
  have hconv : ∀ w ∈ sampleWrites,
      ∃ v, w.source.toNumber (fun _ => []) >>= castInt w.member.int = .ok v := by
    have hone : castInt .int32 .one = .ok ⟨1, by decide⟩ := by decide
    have hseven : castInt .int32 (.ofInt 7) = .ok ⟨7, by decide⟩ := by decide
    exact List.forall_mem_cons.mpr
      ⟨⟨_, hone⟩, List.forall_mem_singleton.mpr ⟨_, hseven⟩⟩
  obtain ⟨m, hm⟩ := hreturns.mpr hconv
  have hlast : lastValue (fun _ => []) (sampleAccess .base) v sampleWrites = 7 := rfl
  exact ⟨sys, m, hsys, hm, hlast ▸ hread m hm⟩

end SkyEngine.Meta
