import SkyEngine.LuaInterface.Bind

/-!
# LuaInterface — RoundTrip

An object pushed by `WriteType` and read back by `ReadType`. The writer
stores the pointer of the run-time class but labels the userdata with its
own class, and the reader takes the pointer for one of the label. The two
agree when `Object` sits at the same place in both classes.
-/

namespace SkyEngine.Meta

open Function
open Forest Position Lua

variable {κ σ : Type} [DecidableEq κ] {R : Registrations κ}

namespace Registry

variable {sys : MetaSystem κ} {ord tops : List κ} {lay : Layout R} {ids : ObjectIds}

theorem ne_void {c : κ} (hc : lay.IsObject c) : c ≠ R.voidType := by
  intro he
  rw [he, Layout.IsObject, lay.void_offset] at hc
  cases hc

/-- **What is written**: the pointer of the run-time class `D`. -/
theorem writtenPointer_eq (h : Registry R sys ord tops) (hR : R.WellLinked) {S D : κ}
    (hD : R.Listed D) (hSo : lay.IsObject S) (hDo : lay.IsObject D) {o : Int}
    (hlive : 0 < lay.part o S) (hid : ids o = sys.metaClassIdOf D) :
    writtenPointer sys lay ids (.copy S) (lay.part o S) = .ok (lay.part o D) := by
  have ho := Layout.object_pos hlive
  have hup : lay.upcast S (lay.part o S) = o := Layout.upcast_part hSo (by omega)
  have hne : ¬ o = 0 := by omega
  have hbase : baseObject lay (.copy S) (lay.part o S) = some o := by
    simp only [baseObject, MetaPtr.type, hup, hne, if_false]
  have hlook : sys.getMetaClassById (ids o) = .ok (.copy D) := by
    rw [hid, h.metaClassIdOf hD.mem_classes]
    exact h.getMetaClassById hR hD
  simp only [writtenPointer, hbase, hlook, bind, Except.bind, MetaPtr.type]
  rw [Layout.downcast_object hDo hne]

/-- A cast that trusts a wrong label never lands on the right part: from a
pointer to the `D` part read as an `S`, it reaches neither `E`'s part nor
anything but null. -/
theorem dynamicCast_wrong_label {S D E : κ} (hSo : lay.IsObject S) (hEo : lay.IsObject E)
    (hcls : (sys.obj (.copy S)).isClass = true) {o : Int} (hD : 0 < lay.part o D)
    (hE : 0 < lay.part o E) (hoff : lay.part o D ≠ lay.part o S) :
    dynamicCast sys lay ids (.copy E) (lay.part o D) (.copy S) ≠ .ok (lay.part o E) := by
  by_cases hES : E = S
  · subst hES
    rw [dynamicCast_self]
    intro he
    exact hoff (Except.ok.inj he)
  · obtain ⟨offS, hS⟩ := Option.isSome_iff_exists.mp hSo
    obtain ⟨offE, hE'⟩ := Option.isSome_iff_exists.mp hEo
    -- the address the reader takes for the `Object` subobject
    let o' := lay.part o D + offS
    have ho' : o' ≠ o := by
      intro he
      apply hoff
      show _ = o - ((lay.objectOffset S).getD 0 : Nat)
      rw [hS]
      show lay.part o D = o - (offS : Int)
      omega
    have hpos : ¬ o' = 0 := by omega
    have hup : lay.upcast S (lay.part o D) = o' := by
      have hne : ¬ lay.part o D = 0 := by omega
      simp only [Layout.upcast, hS, hne, if_false]
      rfl
    have hstart : castStart sys lay (.copy E) (lay.part o D) (.copy S) = .lookup o' := by
      have hne : (MetaPtr.copy E) ≠ .copy S := by simpa using hES
      rw [castStart, if_neg hne, hcls]
      simp only [Bool.true_eq_false, if_false, MetaPtr.type, hup, hpos]
    have hdown : lay.downcast E o' ≠ lay.part o E := by
      rw [Layout.downcast_object hEo hpos]
      simp only [Layout.part, hE', Option.getD_some]
      omega
    simp only [dynamicCast, hstart]
    intro he
    obtain ⟨pObjectClass, _, hfin⟩ := bind_ok he
    have hval := Except.ok.inj hfin
    rcases castFinish_cases sys lay (.copy E) pObjectClass o' with hstep | hnull
    · exact hdown (hstep.symm.trans hval)
    · omega

/-- **The trip, step by step**: the label lets every class at or above `S`
through, so what is read is the cast of the written pointer. -/
theorem writeType_readType (h : Registry R sys ord tops) (hR : R.WellLinked)
    (api : LuaApi κ σ) {S D E : κ} (hS : R.Listed S) (hD : R.Listed D)
    (hSo : lay.IsObject S) (hDo : lay.IsObject D) (hES : E = S ∨ Ancestor R.parentOf E S)
    {o : Int} (hlive : 0 < lay.part o S) (hid : ids o = sys.metaClassIdOf D) {L : σ}
    (hbound : Bound R (api.view L) S) (object : Int) :
    ∃ L' L'', writeType api sys lay ids (.copy S) (lay.part o S) L = .ok L'
      ∧ readType api sys lay ids (.copy E) L' (-1) object
        = (dynamicCast sys lay ids (.copy E) (lay.part o D) (.copy S)).map
            fun result => ⟨L'', result, none⟩ := by
  obtain ⟨t, ht, hglobal, hfield⟩ := hbound
  have hwritten := h.writtenPointer_eq hR hD hSo hDo hlive hid
  obtain ⟨L', hwrite, hview⟩ := writeType_spec api sys lay ids h (ne_void hSo) (by omega)
    hwritten hglobal
  have hget : (api.view L').get? (-1) = some (.userdata (api.view L).userdataCount) := by
    rw [hview]
    exact State.get?_top _ rfl
  have hlabel : Labelled (api.view L') (api.view L).userdataCount S := by
    rw [hview]
    exact ⟨t, update_self _ _ _, hfield⟩
  have hblock : (api.view L').block (api.view L).userdataCount = lay.part o D := by
    rw [hview]
    exact update_self _ _ _
  have hacc : acceptsClass sys (.copy E) (.copy S) = true := by
    rw [h.acceptsClass_iff hR]
    refine hES.imp id fun hanc => ?_
    exact (h.ancestor_mem hR (h.listed_sub S hS) hanc).2
  obtain ⟨L'', _, hread⟩ := readType_spec api sys lay ids (.copy E) hget hlabel object
  rw [if_pos hacc, hblock] at hread
  exact ⟨L', L'', hwrite, hread⟩

end Registry

/-- The object written through its `S` part comes back as its `E` part. -/
def RoundTrips (api : LuaApi κ σ) (sys : MetaSystem κ) (lay : Layout R) (ids : ObjectIds)
    (S E : κ) (o : Int) (L : σ) (object : Int) : Prop :=
  ∃ L' r, writeType api sys lay ids (sys.self S) (lay.part o S) L = .ok L'
    ∧ readType api sys lay ids (sys.self E) L' (-1) object = .ok r
    ∧ r.object = lay.part o E ∧ r.error = none

theorem nullRoundTrips (api : LuaApi κ σ) (sys : MetaSystem κ) (lay : Layout R)
    (ids : ObjectIds) (S E : MetaPtr κ) (L : σ) (object : Int) :
    ∃ L' r, writeType api sys lay ids S 0 L = .ok L'
      ∧ readType api sys lay ids E L' (-1) object = .ok r
      ∧ r.object = 0 ∧ r.error = none := by
  refine ⟨api.push L .nil, ⟨api.push L .nil, 0, none⟩, writeType_null api sys lay ids _ L,
    ?_, rfl, rfl⟩
  apply readType_nil
  rw [api.push_eq]
  exact State.get?_top _ rfl

/-- **Where an object survives the trip through Lua**: pushed through an
`S` pointer whose metatable is bound, a live object of run-time class `D`
is read back right as any class `E` at or above `S` exactly when `Object`
has the same offset in `S` and in `D`; `S` and `E` derive from `Object`. A
null pointer always survives. -/
theorem roundTrips_iff (hR : R.WellLinked) (hnames : (R.types.map (·.name)).Nodup)
    {walk : List (MetaPtr κ)} (hw : R.Walk walk) {fuel : Nat}
    (hfuel : R.classes.length ≤ fuel) {sys : MetaSystem κ}
    (hinit : initializeSystem R walk fuel = .ok sys) (api : LuaApi κ σ) (lay : Layout R)
    (ids : ObjectIds) {S D E : κ} (hS : S ∈ R.classes) (hD : D ∈ R.classes)
    (hE : E ∈ R.classes) (hSo : lay.IsObject S) (hEo : lay.IsObject E)
    (hSD : D = S ∨ Ancestor R.parentOf S D) (hES : E = S ∨ Ancestor R.parentOf E S)
    {o : Int} (hlive : 0 < lay.part o D) (hid : ids o = sys.metaClassIdOf D) {L : σ}
    (hbound : Bound R (api.view L) S) (object : Int) :
    (RoundTrips api sys lay ids S E o L object ↔ lay.objectOffset D = lay.objectOffset S)
      ∧ ∃ L' r, writeType api sys lay ids (sys.self S) 0 L = .ok L'
        ∧ readType api sys lay ids (sys.self E) L' (-1) object = .ok r
        ∧ r.object = 0 ∧ r.error = none := by
  refine ⟨?_, nullRoundTrips api sys lay ids _ _ L object⟩
  obtain ⟨ord, tops, hreg⟩ := initializeSystem_registry hR hw hfuel hinit
  have hSl : R.Listed S := listed_of_distinct hnames hS
  have hDl : R.Listed D := listed_of_distinct hnames hD
  have hDS : lay.IsObject D ∧ lay.part o D ≤ lay.part o S := by
    rcases hSD with rfl | hanc
    · exact ⟨hSo, le_refl _⟩
    · exact Layout.part_le_of_ancestor hanc hSo o
  have hSE : lay.part o S ≤ lay.part o E := by
    rcases hES with rfl | hanc
    · exact le_refl _
    · exact (Layout.part_le_of_ancestor hanc hEo o).2
  have hliveS : 0 < lay.part o S := by omega
  obtain ⟨L', L'', hwrite, hread⟩ := hreg.writeType_readType hR api hSl hDl hSo hDS.1 hES
    hliveS hid hbound object
  -- both sides come down to the cast of the written pointer
  have hcast : RoundTrips api sys lay ids S E o L object
      ↔ dynamicCast sys lay ids (.copy E) (lay.part o D) (.copy S) = .ok (lay.part o E) := by
    unfold RoundTrips
    rw [hreg.self_eq S hS, hreg.self_eq E hE]
    constructor
    · rintro ⟨L₁, r, hw₁, hr₁, hobj, _⟩
      cases Except.ok.inj (hwrite.symm.trans hw₁)
      rw [hread] at hr₁
      cases hc : dynamicCast sys lay ids (.copy E) (lay.part o D) (.copy S) with
      | error e => simp [hc, Except.map] at hr₁
      | ok a =>
          rw [hc] at hr₁
          cases hr₁
          exact congrArg Except.ok hobj
    · intro hc
      rw [hc] at hread
      exact ⟨L', _, hwrite, hread, rfl, rfl⟩
  have hpart : lay.part o D = lay.part o S ↔ lay.objectOffset D = lay.objectOffset S := by
    obtain ⟨offS, hoS⟩ := Option.isSome_iff_exists.mp hSo
    obtain ⟨offD, hoD⟩ := Option.isSome_iff_exists.mp hDS.1
    simp only [Layout.part, hoS, hoD, Option.getD_some, Option.some.injEq]
    omega
  rw [hcast, ← hpart]
  constructor
  · intro hc
    by_contra hne
    exact Registry.dynamicCast_wrong_label hSo hEo (hreg.isClass hS) hlive (by omega) hne hc
  · intro he
    classical
    have hEd : E = D ∨ Ancestor R.parentOf E D := by
      rcases hES with rfl | hanc
      · exact hSD.imp Eq.symm id
      · rcases hSD with rfl | hanc'
        · exact .inr hanc
        · exact .inr (hanc.trans hanc')
    have heq := hreg.dynamicCast_eq hR hS hE hDl (hSD.imp Eq.symm id) hSo hEo hliveS hid
    rw [if_pos hEd, hreg.self_eq S hS, hreg.self_eq E hE] at heq
    rw [he, heq]

/-! ## At the sample -/

/-- Which of the sample's classes can be made, and how large they are. -/
def sampleInfo : ObjectInfo SampleType where
  isAbstract := fun c => c == .void
  sizeOfObject := fun _ => 64
  alignOfObject := fun _ => 8

/-- The reference interpreter with one class bound. -/
def sampleBound (sys : MetaSystem SampleType) (c : SampleType) : LuaState SampleType :=
  metaLuaBindClass Api.reference sys sampleInfo (.copy c) State.empty

/-- A `derived` pushed and read as a `base`; both keep `Object` behind the
vtable. -/
theorem roundTrips_iff_sample :
    ∃ sys, initializeSystem sampleProgram sampleWalk 8 = .ok sys
      ∧ RoundTrips Api.reference sys sampleLayout (fun _ => sys.metaClassIdOf .derived)
          .base .base 4104 (sampleBound sys .base) 0 := by
  obtain ⟨sys, hsys, ord, tops, hreg⟩ := sampleProgram_registry
  have hR := sampleProgram_wellLinked
  have hbound : Bound sampleProgram (Api.reference.view (sampleBound sys .base)) .base :=
    bound_metaLuaBindClass Api.reference hreg sampleInfo .base State.empty
  have hanc : Ancestor sampleProgram.parentOf .base .derived := .parent (by decide)
  have h := roundTrips_iff hR sampleProgram_names sampleWalk_walk sampleProgram_fuel hsys
    Api.reference sampleLayout (fun _ => sys.metaClassIdOf .derived) (S := .base) (D := .derived)
    (E := .base) (by decide) (by decide) (by decide) (by decide) (by decide) (.inr hanc)
    (.inl rfl) (o := 4104) (by decide) rfl hbound 0
  exact ⟨sys, hsys, h.1.mpr (by decide)⟩

/-- A `sprite` at 4096 has its vtable there and its `pod` part at 4104.
Pushed through the `pod` pointer, it is read back as a `pod` at 4096. -/
theorem roundTrip_sprite_sample :
    ∃ sys, initializeSystem sampleProgram sampleWalk 8 = .ok sys
      ∧ sampleLayout.part 4104 .pod = 4104
      ∧ ∃ L' r, writeType Api.reference sys sampleLayout
            (fun _ => sys.metaClassIdOf .sprite) (sys.self .pod) 4104 (sampleBound sys .pod)
          = .ok L'
        ∧ readType Api.reference sys sampleLayout (fun _ => sys.metaClassIdOf .sprite)
            (sys.self .pod) L' (-1) 0 = .ok r
        ∧ r.error = none ∧ r.object = 4096 := by
  obtain ⟨sys, hsys, ord, tops, hreg⟩ := sampleProgram_registry
  have hR := sampleProgram_wellLinked
  have hpod : sampleProgram.Listed .pod := by decide
  have hsprite : sampleProgram.Listed .sprite := by decide
  have hpodObject : sampleLayout.IsObject .pod := by decide
  have hspriteObject : sampleLayout.IsObject .sprite := by decide
  have hlive : 0 < sampleLayout.part 4104 .pod := by decide
  have hbound : Bound sampleProgram (Api.reference.view (sampleBound sys .pod)) .pod :=
    bound_metaLuaBindClass Api.reference hreg sampleInfo .pod State.empty
  have htrip : ∃ L' L'', writeType Api.reference sys sampleLayout
        (fun _ => sys.metaClassIdOf .sprite) (.copy .pod) 4104 (sampleBound sys .pod) = .ok L'
      ∧ readType Api.reference sys sampleLayout (fun _ => sys.metaClassIdOf .sprite)
          (.copy .pod) L' (-1) 0
        = (dynamicCast sys sampleLayout (fun _ => sys.metaClassIdOf .sprite) (.copy .pod) 4096
            (.copy .pod)).map fun result => ⟨L'', result, none⟩ :=
    hreg.writeType_readType hR Api.reference hpod hsprite hpodObject hspriteObject (.inl rfl)
      hlive rfl hbound 0
  obtain ⟨L', L'', hwrite, hread⟩ := htrip
  rw [dynamicCast_self] at hread
  refine ⟨sys, hsys, by decide, L', ⟨L'', 4096, none⟩, ?_, ?_, rfl, rfl⟩
  · rw [hreg.self_eq .pod (by decide)]
    exact hwrite
  · rw [hreg.self_eq .pod (by decide)]
    exact hread

end SkyEngine.Meta
