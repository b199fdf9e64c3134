import SkyEngine.LuaInterface.Cast
import SkyEngine.LuaInterface.Equality

/-!
# LuaInterface — CastAgreement

`MetaLuaCast` against the cast it stands for. It never yields an object, so
it agrees with `DynamicCast` where that gives null; and only if none of its
own steps fails: the label, the check against `Object`, and the lookup of
the class of whatever it takes for the `Object` subobject.
-/

namespace SkyEngine.Meta

open Function (update update_self update_of_ne)
open Forest Lua

variable {κ σ : Type} [DecidableEq κ] {R : Registrations κ}

section Steps

variable (api : LuaApi κ σ) (sys : MetaSystem κ) (lay : Layout R) (ids : ObjectIds)

omit [DecidableEq κ] in
theorem getMetaClassById_total_iff (i : Int) :
    (∃ mc, sys.getMetaClassById i = .ok mc) ↔ 0 ≤ i ∧ i < kMaxClasses := by
  unfold MetaSystem.getMetaClassById
  split
  · rename_i h
    simp [h]
  · rename_i h
    simp [h]

/-- The stub answers for every class: what is pushed is `nil`. -/
theorem castObject_eq (upval sourceType : MetaPtr κ) (pBase : Int) (L : σ) :
    castObject api sys lay ids upval sourceType pBase L = .ok (api.push L .nil) := by
  simp [castObject, isDerivedFrom]

/-- A userdata without a metatable is no object to `ReadType`. -/
theorem readType_bare (this : MetaPtr κ) {L : σ} {index : Int} {u : Nat}
    (hu : (api.view L).get? index = some (.userdata u))
    (hbare : (api.view L).metatable u = none) (object : Int) :
    readType api sys lay ids this L index object
      = .ok ⟨L, object, some (expectedMessage (sys.obj this).name "userdata")⟩ := by
  obtain ⟨htype, hptr⟩ := api.userdata_at hu
  have hmeta : api.getmetatable L index = none := by
    have heq := api.getmetatable_eq L index u hu
    rw [hbare] at heq
    exact Option.map_eq_none_iff.mp heq
  have hne : ¬ LuaType.userdata = LuaType.nil := by decide
  have hname : api.typename .userdata = "userdata" := by
    rw [api.typename_eq]
    rfl
  simp only [readType, htype, hne, if_false, hptr, hmeta, hname]

/-- `MetaLuaCast` on a labelled userdata raises no error exactly when the
label passes and both class lookups stay in bounds. -/
theorem metaLuaCast_total_iff {objectType S : κ} (upval : MetaPtr κ) {L : σ} {u : Nat}
    (hu : (api.view L).get? 1 = some (.userdata u)) (hS : Labelled (api.view L) u S) :
    (∃ L', metaLuaCast api sys lay ids objectType upval L = .ok (L', none))
      ↔ acceptsClass sys (sys.self objectType) (.copy S) = true
        ∧ ∃ result, dynamicCast sys lay ids (sys.self objectType) ((api.view L).block u) (.copy S)
            = .ok result
          ∧ ∃ mc, castSource R sys ids (lay.upcast (sys.self objectType).type result) = .ok mc := by
  obtain ⟨L₁, _, hread⟩ := readType_spec api sys lay ids (sys.self objectType) hu hS 0
  by_cases hacc : acceptsClass sys (sys.self objectType) (.copy S) = true
  · rw [if_pos hacc] at hread
    cases hcast : dynamicCast sys lay ids (sys.self objectType) ((api.view L).block u)
        (.copy S) with
    | error e =>
        rw [hcast] at hread
        simp [metaLuaCast, hread, Except.map, bind, Except.bind]
    | ok result =>
        rw [hcast] at hread
        have hread' : readType api sys lay ids (sys.self objectType) L 1 0
            = .ok ⟨L₁, result, none⟩ := hread
        cases hsource : castSource R sys ids (lay.upcast (sys.self objectType).type result) with
        | error e => simp [metaLuaCast, hread', hsource, hacc, bind, Except.bind]
        | ok mc =>
            simp [metaLuaCast, hread', hsource, hacc, castObject_eq, bind, Except.bind]
  · rw [if_neg hacc] at hread
    simp [metaLuaCast, hread, hacc, bind, Except.bind]

end Steps

/-- Where the reader takes the `Object` of a pointer to be, when the label
says `S`. -/
def Layout.assumedObject (lay : Layout R) (S : κ) (pObject : Int) : Int :=
  pObject + ((lay.objectOffset S).getD 0 : Nat)

/-- Both lookups ask for the class of the same address. -/
theorem Registry.castLookups_iff {sys : MetaSystem κ} {ord tops : List κ} {lay : Layout R}
    {ids : ObjectIds} (h : Registry R sys ord tops) {objectType S : κ} (hS : S ∈ R.classes)
    (hSo : lay.IsObject S) (hoff : lay.objectOffset objectType = some 0) {p : Int}
    (hp : 0 < p) :
    (∃ result, dynamicCast sys lay ids (.copy objectType) p (.copy S) = .ok result
        ∧ ∃ mc, castSource R sys ids (lay.upcast objectType result) = .ok mc)
      ↔ 0 ≤ ids (lay.assumedObject S p) ∧ ids (lay.assumedObject S p) < kMaxClasses := by
  obtain ⟨off, hoffS⟩ := Option.isSome_iff_exists.mp hSo
  have hup : ∀ a : Int, lay.upcast objectType a = a := by
    intro a
    simp only [Layout.upcast, hoff]
    split
    · omega
    · simp
  have hassumed : lay.assumedObject S p = p + off := by
    simp only [Layout.assumedObject, hoffS, Option.getD_some]
  have hsource : ∀ a : Int, a ≠ 0 →
      castSource R sys ids (lay.upcast objectType a) = sys.getMetaClassById (ids a) := by
    intro a ha
    rw [hup, castSource, if_neg ha]
  rw [← getMetaClassById_total_iff sys, hassumed]
  by_cases hobj : objectType = S
  · subst hobj
    have hzero : off = 0 := Option.some.inj (hoffS.symm.trans hoff)
    subst hzero
    simp only [dynamicCast_self, Int.natCast_zero, Int.add_zero]
    constructor
    · rintro ⟨result, hresult, mc, hmc⟩
      cases hresult
      exact ⟨mc, (hsource p (by omega)).symm.trans hmc⟩
    · rintro ⟨mc, hmc⟩
      exact ⟨p, rfl, mc, (hsource p (by omega)).trans hmc⟩
  · have hstart : castStart sys lay (.copy objectType) p (.copy S) = .lookup (p + off) := by
      have hne : MetaPtr.copy objectType ≠ .copy S := by simpa using hobj
      have hpS : lay.upcast S p = p + off := by
        have hp0 : ¬ p = 0 := by omega
        simp only [Layout.upcast, hoffS, hp0, if_false]
      have hnull : ¬ p + (off : Int) = 0 := by omega
      rw [castStart, if_neg hne, h.isClass hS]
      simp only [Bool.true_eq_false, if_false, MetaPtr.type, hpS, hnull]
    simp only [dynamicCast, hstart]
    constructor
    · rintro ⟨result, hresult, _⟩
      obtain ⟨mc, hmc, _⟩ := bind_ok hresult
      exact ⟨mc, hmc⟩
    · rintro ⟨mc, hmc⟩
      simp only [hmc, bind, Except.bind]
      refine ⟨_, rfl, ?_⟩
      have hdown : lay.downcast objectType (p + off) = p + off := by
        have hnull : ¬ p + (off : Int) = 0 := by omega
        simp [Layout.downcast, hoff, hnull]
      rcases castFinish_cases sys lay (.copy objectType) mc (p + off) with hstep | hnull
      · rw [hstep, MetaPtr.type_copy, hdown]
        exact ⟨mc, (hsource _ (by omega)).trans hmc⟩
      · rw [hnull, hup]
        exact ⟨_, if_pos rfl⟩

/-! ## Agreement -/

/-- `MetaLuaCast` with upvalue `T`, called on the userdata `u` (and whatever
else is passed), answers for an object of run-time class `D` as it should:
with the object if `T` is `D` or above it, with `nil` otherwise. -/
def LuaCastAgrees (api : LuaApi κ σ) (sys : MetaSystem κ) (lay : Layout R) (ids : ObjectIds)
    (objectType T D : κ) (o : Int) (L : σ) (args : List (LuaValue κ)) : Prop :=
  ∃ L', metaLuaCast api sys lay ids objectType (sys.self T) (api.enter L args) = .ok (L', none)
    ∧ (T = D ∨ Ancestor R.parentOf T D →
        ∃ u rest, (api.view L').stack = .userdata u :: rest
          ∧ (api.view L').block u = lay.part o D)
    ∧ (¬ (T = D ∨ Ancestor R.parentOf T D) →
        api.view L' = (api.view (api.enter L args)).push .nil)

/-- Where `MetaLuaCast` gets it right: there is no object to give, and none
of its steps fails on the way to `nil`. -/
structure CastDeclines (lay : Layout R) (ids : ObjectIds) (objectType S T D : κ) (o : Int)
    (v : LuaState κ) : Prop where
  unrelated : ¬ (T = D ∨ Ancestor R.parentOf T D)
  bound : Bound R v S
  accepted : objectType = S ∨ ∃ c, R.parentOf c = some objectType
  lookup : 0 ≤ ids (lay.assumedObject S (lay.part o D))
    ∧ ids (lay.assumedObject S (lay.part o D)) < kMaxClasses

/-- The userdata `u` is as it was, its metatable too. -/
structure Untouched (v v' : LuaState κ) (u : Nat) : Prop where
  block : v'.block u = v.block u
  metatable : v'.metatable u = v.metatable u
  field : ∀ t, v.metatable u = some t → v'.field t = v.field t

/-- Agreement is: nothing to give, and no error. -/
theorem luaCastAgrees_iff_total (api : LuaApi κ σ) (sys : MetaSystem κ) (lay : Layout R)
    (ids : ObjectIds) (objectType T D : κ) (o : Int) (L : σ) (args : List (LuaValue κ)) :
    LuaCastAgrees api sys lay ids objectType T D o L args
      ↔ ¬ (T = D ∨ Ancestor R.parentOf T D)
        ∧ ∃ L', metaLuaCast api sys lay ids objectType (sys.self T) (api.enter L args)
            = .ok (L', none) := by
  constructor
  · rintro ⟨L', hcast, hgive, _⟩
    refine ⟨?_, L', hcast⟩
    intro hrelated
    obtain ⟨u, rest, hstack, _⟩ := hgive hrelated
    have hview : api.view L' = (api.view (api.enter L args)).push .nil :=
      metaLuaCast_view api sys lay ids hcast
    rw [hview] at hstack
    cases hstack
  · rintro ⟨hunrelated, L', hcast⟩
    refine ⟨L', hcast, fun hrelated => absurd hrelated hunrelated, fun _ => ?_⟩
    exact metaLuaCast_view api sys lay ids hcast

omit [DecidableEq κ] in
/-- What a C function sees of a userdata that was pushed on top of `v` and
has been left alone since. -/
theorem seen_userdata (api : LuaApi κ σ) {v : LuaState κ} {a : Int} {mt : Option Nat} {L₁ L₂ : σ}
    (hview : api.view L₁ = { v with
      stack := .userdata v.userdataCount :: v.stack
      block := update v.block v.userdataCount a
      metatable := update v.metatable v.userdataCount mt
      userdataCount := v.userdataCount + 1 })
    (hkept : Untouched (api.view L₁) (api.view L₂) v.userdataCount) {args : List (LuaValue κ)}
    (hargs : args[0]? = some (.userdata v.userdataCount)) :
    (api.view (api.enter L₂ args)).get? 1 = some (.userdata v.userdataCount)
      ∧ (api.view (api.enter L₂ args)).block v.userdataCount = a
      ∧ (api.view (api.enter L₂ args)).metatable v.userdataCount = mt
      ∧ ∀ t, mt = some t → (api.view (api.enter L₂ args)).field t = v.field t := by
  have hmeta : (api.view L₁).metatable v.userdataCount = mt := by
    rw [hview]
    exact update_self _ _ _
  rw [api.enter_eq]
  refine ⟨(State.get?_args _ rfl 0).trans hargs, ?_, ?_, ?_⟩
  · show (api.view L₂).block _ = a
    rw [hkept.block, hview]
    exact update_self _ _ _
  · show (api.view L₂).metatable _ = mt
    rw [hkept.metatable, hmeta]
  · intro t ht
    show (api.view L₂).field t = _
    rw [hkept.field t (hmeta.trans ht), hview]

/-- A userdata that has the metatable of a bound class is labelled. -/
theorem Bound.labelled {v v' : LuaState κ} {c : κ} (h : Bound R v c) {u : Nat}
    (hmeta : v'.metatable u = (v.global (R.nameOf c)).table?)
    (hfield : ∀ t, (v.global (R.nameOf c)).table? = some t → v'.field t = v.field t) :
    Labelled v' u c := by
  obtain ⟨t, _, ht, hlabel⟩ := h
  rw [ht] at hmeta hfield
  exact ⟨t, hmeta, by rw [hfield t rfl]; exact hlabel⟩

/-- `MetaLuaCast` on an object of run-time class `D` that was pushed through
a bound class `S`. -/
theorem Registry.metaLuaCast_pushed_iff {sys : MetaSystem κ} {ord tops : List κ}
    {lay : Layout R} {ids : ObjectIds} (h : Registry R sys ord tops) (hR : R.WellLinked)
    (api : LuaApi κ σ) {objectType S D : κ} (upval : MetaPtr κ)
    (hobj : objectType ∈ R.classes) (hoff : lay.objectOffset objectType = some 0)
    (hS : S ∈ R.classes) (hSo : lay.IsObject S) {o : Int} (hlive : 0 < lay.part o D) {L : σ}
    {u : Nat} (hget : (api.view L).get? 1 = some (.userdata u))
    (hlabelled : Labelled (api.view L) u S) (hblock : (api.view L).block u = lay.part o D) :
    (∃ L', metaLuaCast api sys lay ids objectType upval L = .ok (L', none))
      ↔ (objectType = S ∨ objectType ∈ tops)
        ∧ 0 ≤ ids (lay.assumedObject S (lay.part o D))
        ∧ ids (lay.assumedObject S (lay.part o D)) < kMaxClasses := by
  rw [metaLuaCast_total_iff api sys lay ids upval hget hlabelled, h.self_eq _ hobj,
    h.acceptsClass_iff hR, hblock, MetaPtr.type_copy, h.castLookups_iff hS hSo hoff hlive]

/-- **Where Lua casts agree with C++ casts.** An object of run-time class
`D`, pushed through a class `S` that derives from `Object` and whose name is
bound or still free, and cast to `T` at any later time: `MetaLuaCast` answers
as it should exactly where `CastDeclines` holds. The answer it should give is
that of `DynamicCast`. -/
theorem luaCastAgrees_iff (hR : R.WellLinked) (hnames : (R.types.map (·.name)).Nodup)
    {walk : List (MetaPtr κ)} (hw : R.Walk walk) {fuel : Nat}
    (hfuel : R.classes.length ≤ fuel) {sys : MetaSystem κ}
    (hinit : initializeSystem R walk fuel = .ok sys) (api : LuaApi κ σ) (lay : Layout R)
    (ids ids' : ObjectIds) {objectType S T D : κ} (hobj : objectType ∈ R.classes)
    (hoff : lay.objectOffset objectType = some 0) (hS : S ∈ R.classes) (hT : T ∈ R.classes)
    (hD : D ∈ R.classes) (hSo : lay.IsObject S) (hSD : D = S ∨ Ancestor R.parentOf S D)
    {o : Int} (hlive : 0 < lay.part o D) (hid : ids o = sys.metaClassIdOf D)
    (hid' : ids' o = sys.metaClassIdOf D) {L : σ}
    (hset : Bound R (api.view L) S ∨ (api.view L).global (R.nameOf S) = .nil) :
    (∃ L₁, writeType api sys lay ids (sys.self S) (lay.part o S) L = .ok L₁
      ∧ (api.view L₁).stack = .userdata (api.view L).userdataCount :: (api.view L).stack
      ∧ ∀ L₂, Untouched (api.view L₁) (api.view L₂) (api.view L).userdataCount →
        ∀ args, args[0]? = some (.userdata (api.view L).userdataCount) →
          (LuaCastAgrees api sys lay ids' objectType T D o L₂ args
            ↔ CastDeclines lay ids' objectType S T D o (api.view L)))
      ∧ (lay.IsObject T →
        ((∃ result, dynamicCast sys lay ids' (sys.self T) (lay.part o S) (sys.self S) = .ok result
            ∧ result ≠ 0)
          ↔ T = D ∨ Ancestor R.parentOf T D)) := by
  obtain ⟨ord, tops, hreg⟩ := initializeSystem_registry hR hw hfuel hinit
  have hDl : R.Listed D := listed_of_distinct hnames hD
  have hpart : ∀ E, E = D ∨ Ancestor R.parentOf E D → lay.IsObject E →
      lay.part o D ≤ lay.part o E := by
    rintro E (rfl | hanc) hEo
    · exact le_refl _
    · exact (Layout.part_le_of_ancestor hanc hEo o).2
  have hSD' : S = D ∨ Ancestor R.parentOf S D := hSD.imp Eq.symm id
  have hliveS := hpart S hSD' hSo
  constructor
  · have hnilOrTable : NilOrTable ((api.view L).global (R.nameOf S)) := by
      rcases hset with hbound | hnil
      · exact hbound.nilOrTable
      · exact .inr hnil
    obtain ⟨L₁, hwrite, hview⟩ := hreg.writeType_canonical hR api hS hDl hSo hSD hlive hid
      hnilOrTable
    refine ⟨L₁, hwrite, by rw [hview], ?_⟩
    intro L₂ hkept args hargs
    obtain ⟨hget, hblock, hmeta, hfield⟩ := seen_userdata api hview hkept hargs
    rw [luaCastAgrees_iff_total]
    rcases hset with hbound | hnil
    · have hlabelled :
          Labelled (api.view (api.enter L₂ args)) (api.view L).userdataCount S :=
        hbound.labelled hmeta hfield
      rw [hreg.metaLuaCast_pushed_iff hR api _ hobj hoff hS hSo hlive hget hlabelled hblock,
        hreg.mem_tops_iff hnames]
      constructor
      · rintro ⟨hunrelated, haccepted, hlookup⟩
        exact ⟨hunrelated, hbound, haccepted, hlookup⟩
      · intro hdeclines
        exact ⟨hdeclines.unrelated, hdeclines.accepted, hdeclines.lookup⟩
    · -- without a metatable the userdata is no object at all
      have hbare : (api.view (api.enter L₂ args)).metatable (api.view L).userdataCount
          = none := by
        rw [hmeta, hnil]
        rfl
      constructor
      · rintro ⟨_, L', hcast⟩
        have hread := readType_bare api sys lay ids' (sys.self objectType) hget hbare 0
        simp [metaLuaCast, hread, bind, Except.bind] at hcast
      · intro hdeclines
        obtain ⟨t, _, ht, _⟩ := hdeclines.bound
        simp [hnil] at ht
  · intro hTo
    classical
    rw [hreg.dynamicCast_eq hR hS hT hDl hSD' hSo hTo (by omega) hid']
    constructor
    · rintro ⟨result, hresult, hne⟩
      by_contra hunrelated
      rw [if_neg hunrelated] at hresult
      cases hresult
      exact hne rfl
    · intro hrelated
      have hliveT := hpart T hrelated hTo
      exact ⟨_, rfl, by rw [if_pos hrelated]; omega⟩

/-! ## At the sample -/

/-- An `Object` at 4096, in the sample with `Object` bound. -/
theorem sampleBound_object :
    ∃ sys, initializeSystem sampleProgram sampleWalk 8 = .ok sys
      ∧ (∃ ord tops, Registry sampleProgram sys ord tops)
      ∧ Bound sampleProgram (Api.reference.view (sampleBound sys .object)) .object
      ∧ 0 ≤ sys.metaClassIdOf .object ∧ sys.metaClassIdOf .object < kMaxClasses := by
  obtain ⟨sys, hsys, ord, tops, hreg⟩ := sampleProgram_registry
  have hlisted : sampleProgram.Listed .object := by decide
  have hrange := hreg.id_range sampleProgram_wellLinked (hreg.listed_sub _ hlisted)
  rw [← hreg.metaClassIdOf hlisted.mem_classes] at hrange
  exact ⟨sys, hsys, ⟨ord, tops, hreg⟩,
    bound_metaLuaBindClass Api.reference hreg sampleInfo .object State.empty, hrange⟩

/-- Cast to `MetaTestDerived`, which it is not, the `Object` gives `nil` in
Lua as in C++. -/
theorem luaCastAgrees_iff_sample :
    ∃ sys, initializeSystem sampleProgram sampleWalk 8 = .ok sys
      ∧ ∃ L₁, writeType Api.reference sys sampleLayout (fun _ => sys.metaClassIdOf .object)
          (sys.self .object) 4096 (sampleBound sys .object) = .ok L₁
        ∧ LuaCastAgrees Api.reference sys sampleLayout (fun _ => sys.metaClassIdOf .object)
            .object .derived .object 4096 L₁ [.userdata 0] := by
  obtain ⟨sys, hsys, _, hbound, hrange⟩ := sampleBound_object
  have hobj : SampleType.object ∈ sampleProgram.classes := by decide
  have h := luaCastAgrees_iff sampleProgram_wellLinked sampleProgram_names sampleWalk_walk
    sampleProgram_fuel hsys Api.reference sampleLayout (fun _ => sys.metaClassIdOf .object)
    (fun _ => sys.metaClassIdOf .object) (S := .object) (T := .derived) (D := .object) hobj rfl
    hobj (by decide) hobj (by decide) (.inl rfl) (o := 4096) (by decide) rfl rfl (.inl hbound)
  obtain ⟨⟨L₁, hwrite, _, hagrees⟩, _⟩ := h
  refine ⟨sys, hsys, L₁, hwrite, ?_⟩
  have hleaf : ∀ c, sampleProgram.parentOf c ≠ some .derived := by
    intro c
    cases c <;> decide
  have hunrelated :
      ¬ (SampleType.derived = .object ∨ Ancestor sampleProgram.parentOf .derived .object) := by
    rintro (h | h)
    · cases h
    · obtain ⟨b, hb⟩ := h.exists_child
      exact hleaf b hb
  refine (hagrees L₁ ⟨rfl, rfl, fun _ _ => rfl⟩ [.userdata 0] rfl).mpr ?_
  exact ⟨hunrelated, hbound, .inl rfl, hrange⟩

/-- Cast to its own class, it gives `nil` in Lua and itself in C++. -/
theorem luaCast_object_sample :
    ∃ sys, initializeSystem sampleProgram sampleWalk 8 = .ok sys
      ∧ dynamicCast sys sampleLayout (fun _ => sys.metaClassIdOf .object) (sys.self .object) 4096
          (sys.self .object) = .ok 4096
      ∧ ∃ L₁ L', writeType Api.reference sys sampleLayout (fun _ => sys.metaClassIdOf .object)
          (sys.self .object) 4096 (sampleBound sys .object) = .ok L₁
        ∧ metaLuaCast Api.reference sys sampleLayout (fun _ => sys.metaClassIdOf .object)
            .object (sys.self .object) (Api.reference.enter L₁ [.userdata 0]) = .ok (L', none)
        ∧ (Api.reference.view L').stack = [.nil, .userdata 0]
        ∧ ¬ LuaCastAgrees Api.reference sys sampleLayout (fun _ => sys.metaClassIdOf .object)
            .object .object .object 4096 L₁ [.userdata 0] := by
  obtain ⟨sys, hsys, ⟨ord, tops, hreg⟩, hbound, hrange⟩ := sampleBound_object
  have hobj : SampleType.object ∈ sampleProgram.classes := by decide
  have hlive : 0 < sampleLayout.part 4096 .object := by decide
  let ids : ObjectIds := fun _ => sys.metaClassIdOf .object
  have hid : ids 4096 = sys.metaClassIdOf .object := rfl
  obtain ⟨L₁, hwrite, hview⟩ := hreg.writeType_canonical sampleProgram_wellLinked Api.reference
    hobj (by decide) (by decide) (.inl rfl) hlive hid hbound.nilOrTable
  have harg : [(Value.userdata 0 : LuaValue SampleType)][0]? = some (.userdata 0) := rfl
  obtain ⟨hget, hblock, hmeta, hfield⟩ :=
    seen_userdata Api.reference hview ⟨rfl, rfl, fun _ _ => rfl⟩ harg
  have hlabelled : Labelled (Api.reference.view (Api.reference.enter L₁ [.userdata 0])) 0
      SampleType.object := hbound.labelled hmeta hfield
  have hlookup : 0 ≤ ids (sampleLayout.assumedObject .object (sampleLayout.part 4096 .object))
      ∧ ids (sampleLayout.assumedObject .object (sampleLayout.part 4096 .object))
        < kMaxClasses := hrange
  obtain ⟨L', hcast⟩ := (hreg.metaLuaCast_pushed_iff sampleProgram_wellLinked Api.reference
    (sys.self .object) hobj rfl hobj (by decide) hlive hget hlabelled hblock).mpr
      ⟨.inl rfl, hlookup⟩
  refine ⟨sys, hsys, dynamicCast_self .., L₁, L', hwrite, hcast, ?_, ?_⟩
  · have hnil := metaLuaCast_view Api.reference sys sampleLayout _ hcast
    rw [hnil]
    rfl
  · rw [luaCastAgrees_iff_total]
    exact fun h => h.1 (.inl rfl)

end SkyEngine.Meta
